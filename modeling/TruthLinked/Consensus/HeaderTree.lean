import Mathlib.Data.Fintype.EquivFin
import TruthLinked.Consensus.ForkChoice
import TruthLinked.Lib.Loop

/-! # The header tree and the loops over it

The readers of `blockchain.rs` that follow `parent_hash` through the stored headers, and the calls that
change the tree. Headers are stored under the batch hash that the caller supplies, and the loops have no
guard of their own: they rely on the shape of the tree. Runs whose accepted headers have a batch hash that
is not stored and not met on the way down from their parent keep that shape (`tree_of_fresh`); a header
that is added twice already breaks it (`header_listed_twice`). `get_chain_between` has no stop at the
genesis header, which is its own parent, and ends iff it meets its lower end or leaves the stored
headers. -/

namespace TruthLinked.Consensus.HeaderTree

open Core.Types Staking.State Consensus.Types Consensus.ForkChoice Lib.Loop Lib.Run Relation

/-! ## The readers

Each loop is given by its turn and the number of turns it may take. -/

/-- The turn of `get_batch_by_height`. -/
def batchByHeightTurn (c : BlockChain) (height : ℕ) (current : Bytes32) : Bytes32 ⊕ Option BatchHeader :=
  match c.headers[current]? with
  | none => .inr none
  | some header =>
    if header.height = height then .inr (some header)
    else if header.height < height then .inr none
    else .inl header.parentHash

/-- `get_batch_by_height`. -/
def getBatchByHeight (c : BlockChain) (height fuel : ℕ) : Option (Option BatchHeader) :=
  if c.currentHeight < height then some none
  else loop (batchByHeightTurn c height) fuel c.canonicalTip

/-- The turn of `get_canonical_chain`. -/
def canonicalChainTurn (c : BlockChain) (fromHeight toHeight : ℕ) :
    Bytes32 × List BatchHeader → (Bytes32 × List BatchHeader) ⊕ List BatchHeader
  | (current, chain) =>
    match c.headers[current]? with
    | none => .inr chain.reverse
    | some header =>
      let chain := if header.height ≤ toHeight ∧ fromHeight ≤ header.height then chain ++ [header]
        else chain
      if header.height ≤ fromHeight then .inr chain.reverse else .inl (header.parentHash, chain)

/-- `get_canonical_chain`. -/
def getCanonicalChain (c : BlockChain) (fromHeight toHeight fuel : ℕ) : Option (List BatchHeader) :=
  loop (canonicalChainTurn c fromHeight toHeight) fuel (c.canonicalTip, [])

/-- The turn of the first loop of `find_common_ancestor`, which collects the chain of `hash_a`. -/
def collectChainTurn (c : BlockChain) :
    Bytes32 × FSet Bytes32 → (Bytes32 × FSet Bytes32) ⊕ FSet Bytes32
  | (current, chainA) =>
    match c.headers[current]? with
    | none => .inr chainA
    | some header =>
      if header.height = 0 then .inr (chainA.insert current)
      else .inl (header.parentHash, chainA.insert current)

/-- The turn of the second loop of `find_common_ancestor`. -/
def commonAncestorTurn (c : BlockChain) (chainA : FSet Bytes32) (current : Bytes32) :
    Bytes32 ⊕ Option Bytes32 :=
  match c.headers[current]? with
  | none => .inr none
  | some header =>
    if chainA.contains current then .inr (some current)
    else if header.height = 0 then .inr none
    else .inl header.parentHash

/-- `find_common_ancestor`. -/
def findCommonAncestor (c : BlockChain) (hashA hashB : Bytes32) (fuel : ℕ) : Option (Option Bytes32) :=
  (loop (collectChainTurn c) fuel (hashA, ∅)).bind fun chainA =>
    loop (commonAncestorTurn c chainA) fuel hashB

/-- The turn of `get_chain_between`. -/
def chainBetweenTurn (c : BlockChain) (lower : Bytes32) :
    Bytes32 × List BatchHeader → (Bytes32 × List BatchHeader) ⊕ List BatchHeader
  | (current, chain) =>
    if current = lower then .inr chain.reverse
    else match c.headers[current]? with
      | some header => .inl (header.parentHash, chain ++ [header])
      | none => .inr chain.reverse

/-- `get_chain_between`. -/
def getChainBetween (c : BlockChain) (lower upper : Bytes32) (fuel : ℕ) : Option (List BatchHeader) :=
  loop (chainBetweenTurn c lower) fuel (upper, [])

/-- The turn of `is_on_canonical_chain`. -/
def onCanonicalChainTurn (c : BlockChain) (hash current : Bytes32) : Bytes32 ⊕ Bool :=
  match c.headers[current]? with
  | none => .inr false
  | some header =>
    if current = hash then .inr true
    else if header.height = 0 then .inr false
    else .inl header.parentHash

/-- `is_on_canonical_chain`. -/
def isOnCanonicalChain (c : BlockChain) (hash : Bytes32) (fuel : ℕ) : Option Bool :=
  loop (onCanonicalChainTurn c hash) fuel c.canonicalTip

/-- The function returns when it has turns enough. -/
def Terminates {α : Type} (f : ℕ → Option α) : Prop := ∃ fuel, (f fuel).isSome

/-! ## The calls -/

/-- `add_stake_weight`. -/
def addStakeWeight (c : BlockChain) (hash : Bytes32) (stake : ℕ) : BlockChain :=
  { c with stakeWeight := c.stakeWeight.insert hash ((c.stakeWeight[hash]?.getD 0 + stake) % u64) }

/-- A call that changes the chain. -/
inductive TreeCall where
  | addHeader (header : BatchHeader)
  | setCanonicalTip (tip : Bytes32) (totalStake : ℕ)
  | addStakeWeight (hash : Bytes32) (stake : ℕ)
  | finalizeHeight (height : ℕ)

/-- The chain after a call. -/
def call (c : BlockChain) : TreeCall → BlockChain
  | .addHeader header => (c.addHeader header).2
  | .setCanonicalTip tip totalStake => (c.setCanonicalTip tip totalStake).2
  | .addStakeWeight hash stake => addStakeWeight c hash stake
  | .finalizeHeight height => c.finalizeHeight height

/-! ## The shape of the tree -/

/-- The height below which headers have been pruned. -/
def pruningFloor (c : BlockChain) : ℕ := c.lastFinalizedHeight - maxHeaderHistory

/-- The header of `k`, which is not of height `0`, names `p` as its parent. -/
def NamesParent (c : BlockChain) (k p : Bytes32) : Prop :=
  ∃ h, c.headers[k]? = some h ∧ h.height ≠ 0 ∧ h.parentHash = p

/-- The hashes listed at a height. -/
def hashesAt (c : BlockChain) (height : ℕ) : List Bytes32 := c.heightIndex[height]?.getD []

/-- The tree is well formed. -/
structure Tree (c : BlockChain) : Prop where
  parents : ∀ (k : Bytes32) (h : BatchHeader), c.headers[k]? = some h → pruningFloor c < h.height →
    ∃ p, c.headers[h.parentHash]? = some p ∧ p.height + 1 = h.height
  acyclic : Acyclic (NamesParent c)
  once : ∀ height, (hashesAt c height).Nodup
  listed : ∀ height k, k ∈ hashesAt c height ↔ ∃ h, c.headers[k]? = some h ∧ h.height = height

/-- **Where the tree stays well formed**: an accepted header has a batch hash that is not stored, and that
is not met by following `parent_hash` from its parent. -/
def Fresh (c : BlockChain) : TreeCall → Prop
  | .addHeader header => c.checkHeader header = .ok () →
      c.headers[header.batchHash]? = none ∧
        ¬ ReflTransGen (NamesParent c) header.parentHash header.batchHash
  | _ => True

/-- What the calls keep: the shape, and that only a header of height `0` is its own parent. -/
structure Inv (c : BlockChain) : Prop extends Tree c where
  rooted : ∀ (k : Bytes32) (h : BatchHeader), c.headers[k]? = some h → h.height = 0 → h.parentHash = k

theorem inv_new (prim : Primitives) : Inv (BlockChain.new prim) := by
  have hget : ∀ (k : Bytes32) (h : BatchHeader), (BlockChain.new prim).headers[k]? = some h ↔
      k = 0 ∧ h = genesis prim := by
    intro k h
    rw [BlockChain.new, Std.ExtTreeMap.getElem?_insert]
    split_ifs with hk
    · obtain rfl := Std.LawfulEqOrd.eq_of_compare hk
      rw [Option.some_inj]
      exact ⟨fun he => ⟨rfl, he.symm⟩, fun he => he.2.symm⟩
    · constructor
      · intro he
        simp at he
      · rintro ⟨rfl, -⟩
        exact absurd Std.ReflOrd.compare_self hk
  have hat : ∀ height, hashesAt (BlockChain.new prim) height = if height = 0 then [0] else [] := by
    intro height
    unfold hashesAt BlockChain.new
    rw [Std.ExtTreeMap.getElem?_insert]
    by_cases h0 : height = 0
    · subst h0
      rw [if_pos Std.ReflOrd.compare_self, if_pos rfl]
      rfl
    · have hne : ¬ compare 0 height = .eq := fun he => h0 (Std.LawfulEqOrd.eq_of_compare he).symm
      rw [if_neg hne, if_neg h0]
      simp
  refine ⟨⟨?_, ?_, ?_, ?_⟩, ?_⟩
  · intro k h hk hlt
    obtain ⟨-, rfl⟩ := (hget k h).mp hk
    exact absurd hlt (Nat.not_lt_zero _)
  · have hno : ∀ k p, ¬ NamesParent (BlockChain.new prim) k p := by
      rintro k p ⟨h, hk, h0, -⟩
      obtain ⟨-, rfl⟩ := (hget k h).mp hk
      exact h0 rfl
    intro k hk
    obtain ⟨p, hp, -⟩ := TransGen.head'_iff.mp hk
    exact hno k p hp
  · intro height
    rw [hat]
    split_ifs <;> simp
  · intro height k
    rw [hat]
    constructor
    · intro hk
      split_ifs at hk with h0
      · exact ⟨genesis prim, (hget k _).mpr ⟨List.mem_singleton.mp hk, rfl⟩, h0.symm⟩
      · cases hk
    · rintro ⟨h, hk, rfl⟩
      obtain ⟨rfl, rfl⟩ := (hget k h).mp hk
      exact List.mem_singleton.mpr rfl
  · intro k h hk _
    obtain ⟨rfl, rfl⟩ := (hget k h).mp hk
    rfl

/-! ## What the calls keep -/

theorem Inv.congr {c c' : BlockChain} (hI : Inv c) (hh : c'.headers = c.headers)
    (hi : c'.heightIndex = c.heightIndex) (hl : c'.lastFinalizedHeight = c.lastFinalizedHeight) :
    Inv c' := by
  obtain ⟨⟨hp, ha, ho, hs⟩, hr⟩ := hI
  constructor
  · constructor
    · simpa only [pruningFloor, hh, hl] using hp
    · exact ha.mono fun k p hkp => by simpa only [NamesParent, hh] using hkp
    · simpa only [hashesAt, hi] using ho
    · simpa only [hashesAt, hi, hh] using hs
  · simpa only [hh] using hr

theorem setCanonicalTip_frame (c : BlockChain) (tip : Bytes32) (totalStake : ℕ) :
    (c.setCanonicalTip tip totalStake).2.headers = c.headers ∧
    (c.setCanonicalTip tip totalStake).2.heightIndex = c.heightIndex ∧
    (c.setCanonicalTip tip totalStake).2.lastFinalizedHeight = c.lastFinalizedHeight := by
  unfold BlockChain.setCanonicalTip
  cases c.headers[tip]? with
  | none => exact ⟨rfl, rfl, rfl⟩
  | some header =>
    dsimp only
    by_cases hlow : header.height < c.lastFinalizedHeight
    · rw [if_pos hlow]
      exact ⟨rfl, rfl, rfl⟩
    · rw [if_neg hlow]
      cases c.headers[c.canonicalTip]? with
      | none => exact ⟨rfl, rfl, rfl⟩
      | some cur =>
        dsimp only
        split <;> exact ⟨rfl, rfl, rfl⟩

section AddHeader
variable {c : BlockChain} {header : BatchHeader}

theorem addHeader_eq (hok : c.checkHeader header = .ok ()) :
    (c.addHeader header).2 =
      { c with
        headers := c.headers.insert header.batchHash header
        heightIndex := c.heightIndex.insert header.height
          (c.heightIndex[header.height]?.getD [] ++ [header.batchHash]) } := by
  unfold BlockChain.addHeader
  rw [hok]

theorem headers_addHeader (hok : c.checkHeader header = .ok ()) (k : Bytes32) :
    (c.addHeader header).2.headers[k]? = if k = header.batchHash then some header else c.headers[k]? := by
  rw [addHeader_eq hok, Std.ExtTreeMap.getElem?_insert]
  by_cases hk : k = header.batchHash
  · rw [if_pos hk, hk, if_pos Std.ReflOrd.compare_self]
  · rw [if_neg hk, if_neg fun he => hk (Std.LawfulEqOrd.eq_of_compare he).symm]

theorem headers_addHeader_of_some (hok : c.checkHeader header = .ok ())
    (hnew : c.headers[header.batchHash]? = none) {k : Bytes32} {h : BatchHeader}
    (hk : c.headers[k]? = some h) : (c.addHeader header).2.headers[k]? = some h := by
  rw [headers_addHeader hok, if_neg, hk]
  rintro rfl
  rw [hnew] at hk
  cases hk

theorem hashesAt_addHeader (hok : c.checkHeader header = .ok ()) (height : ℕ) :
    hashesAt (c.addHeader header).2 height =
      if height = header.height then hashesAt c height ++ [header.batchHash] else hashesAt c height := by
  unfold hashesAt
  rw [addHeader_eq hok, Std.ExtTreeMap.getElem?_insert]
  by_cases hh : height = header.height
  · rw [if_pos hh, hh, if_pos Std.ReflOrd.compare_self]
    rfl
  · rw [if_neg hh, if_neg fun he => hh (Std.LawfulEqOrd.eq_of_compare he).symm]

theorem height_ne_zero (hok : c.checkHeader header = .ok ()) : header.height ≠ 0 := by
  obtain ⟨parent, -, hheight⟩ := addHeader_ok hok
  omega

theorem namesParent_addHeader (hok : c.checkHeader header = .ok ()) {k p : Bytes32}
    (h : NamesParent (c.addHeader header).2 k p) :
    NamesParent c k p ∨ (k = header.batchHash ∧ p = header.parentHash) := by
  obtain ⟨h', hk, h0, hp⟩ := h
  rw [headers_addHeader hok] at hk
  split_ifs at hk with he
  · obtain rfl := Option.some.inj hk
    exact Or.inr ⟨he, hp.symm⟩
  · exact Or.inl ⟨h', hk, h0, hp⟩

theorem Inv.addHeader (hI : Inv c) (hok : c.checkHeader header = .ok ())
    (hnew : c.headers[header.batchHash]? = none)
    (hout : ¬ ReflTransGen (NamesParent c) header.parentHash header.batchHash) :
    Inv (c.addHeader header).2 := by
  obtain ⟨parent, hparent, hheight⟩ := addHeader_ok hok
  refine ⟨⟨?_, ?_, ?_, ?_⟩, ?_⟩
  · intro k h hk hlt
    rw [headers_addHeader hok] at hk
    split_ifs at hk with he
    · obtain rfl := Option.some.inj hk
      exact ⟨parent, headers_addHeader_of_some hok hnew hparent, hheight.symm⟩
    · have hfloor : pruningFloor (c.addHeader header).2 = pruningFloor c := by
        rw [addHeader_eq hok]
        rfl
      obtain ⟨p, hp, hph⟩ := hI.parents k h hk (hfloor ▸ hlt)
      exact ⟨p, headers_addHeader_of_some hok hnew hp, hph⟩
  · exact acyclic_insert (fun k p => namesParent_addHeader hok) hI.acyclic hout
  · intro height
    rw [hashesAt_addHeader hok]
    split_ifs
    · refine List.nodup_append.mpr ⟨hI.once height, List.nodup_singleton _, ?_⟩
      rintro k hk k' hk' rfl
      obtain ⟨h, hh, -⟩ := (hI.listed height k).mp hk
      rw [List.mem_singleton.mp hk', hnew] at hh
      cases hh
    · exact hI.once height
  · intro height k
    rw [hashesAt_addHeader hok]
    simp only [headers_addHeader hok]
    by_cases hk : k = header.batchHash
    · -- the new hash is listed at its own height and nowhere else
      have hold : k ∉ hashesAt c height := by
        intro hin
        obtain ⟨h, hh, -⟩ := (hI.listed height k).mp hin
        rw [hk, hnew] at hh
        cases hh
      rw [if_pos hk]
      split_ifs with hh
      · simp [hk, hh]
      · constructor
        · exact fun hin => absurd hin hold
        · rintro ⟨h, heq, hheq⟩
          obtain rfl := Option.some.inj heq
          exact absurd hheq.symm hh
    · rw [if_neg hk, ← hI.listed height k]
      split_ifs
      · simp [hk]
      · rfl
  · intro k h hk h0
    rw [headers_addHeader hok] at hk
    split_ifs at hk with he
    · obtain rfl := Option.some.inj hk
      exact absurd h0 (height_ne_zero hok)
    · exact hI.rooted k h hk h0

/-- A header that is not fresh breaks the shape at once: its hash is listed twice or at a height where it
is no longer stored, or it closes a cycle. -/
theorem not_tree_addHeader (hT : Tree c) (hok : c.checkHeader header = .ok ())
    (hstale : ¬ Fresh c (.addHeader header)) : ¬ Tree (c.addHeader header).2 := by
  intro hT'
  have hnew : c.headers[header.batchHash]? = none := by
    by_contra hsome
    obtain ⟨old, hold⟩ := Option.ne_none_iff_exists'.mp hsome
    have hin : header.batchHash ∈ hashesAt c old.height := (hT.listed _ _).mpr ⟨old, hold, rfl⟩
    by_cases hh : old.height = header.height
    · have honce := hT'.once header.height
      rw [hashesAt_addHeader hok, if_pos rfl, List.nodup_append] at honce
      exact honce.2.2 _ (hh ▸ hin) _ (List.mem_singleton.mpr rfl) rfl
    · have hin' : header.batchHash ∈ hashesAt (c.addHeader header).2 old.height := by
        rw [hashesAt_addHeader hok, if_neg hh]
        exact hin
      obtain ⟨h, heq, hheq⟩ := (hT'.listed _ _).mp hin'
      rw [headers_addHeader hok, if_pos rfl] at heq
      obtain rfl := Option.some.inj heq
      exact hh hheq.symm
  refine hstale fun _ => ⟨hnew, fun hpath => ?_⟩
  have hlink : NamesParent (c.addHeader header).2 header.batchHash header.parentHash :=
    ⟨header, by rw [headers_addHeader hok, if_pos rfl], height_ne_zero hok, rfl⟩
  have hsub : ∀ k p, NamesParent c k p → NamesParent (c.addHeader header).2 k p := by
    rintro k p ⟨h, hk, h0, hp⟩
    exact ⟨h, headers_addHeader_of_some hok hnew hk, h0, hp⟩
  exact hT'.acyclic _ (TransGen.head' hlink (ReflTransGen.mono hsub _ _ hpath))

end AddHeader

section Prune
variable {c : BlockChain} {keep : ℕ}

theorem headers_prune (k : Bytes32) : (c.pruneOldHeaders keep).headers[k]? =
    c.headers[k]?.filter fun h => decide (keep ≤ h.height) := by
  unfold BlockChain.pruneOldHeaders
  dsimp only
  rw [Std.ExtTreeMap.getElem?_filter']

theorem headers_prune_eq_some {k : Bytes32} {h : BatchHeader} :
    (c.pruneOldHeaders keep).headers[k]? = some h ↔ c.headers[k]? = some h ∧ keep ≤ h.height := by
  rw [headers_prune, Option.filter_eq_some_iff, decide_eq_true_iff]

theorem hashesAt_prune (height : ℕ) : hashesAt (c.pruneOldHeaders keep) height =
    if height < keep then []
    else (hashesAt c height).filter fun k => (c.pruneOldHeaders keep).headers.contains k := by
  unfold hashesAt
  have hindex : (c.pruneOldHeaders keep).heightIndex[height]? = c.heightIndex[height]?.bind fun hashes =>
      if height < keep then none
      else if (hashes.filter fun k => (c.pruneOldHeaders keep).headers.contains k) = [] then none
        else some (hashes.filter fun k => (c.pruneOldHeaders keep).headers.contains k) := by
    unfold BlockChain.pruneOldHeaders
    dsimp only
    rw [Std.ExtTreeMap.getElem?_filterMap']
  rw [hindex]
  cases c.heightIndex[height]? with
  | none => simp
  | some hashes =>
    rw [Option.bind_some]
    split_ifs with hlow hnil
    · rfl
    · rw [Option.getD_some, hnil]
      rfl
    · rfl

theorem namesParent_prune {k p : Bytes32} (h : NamesParent (c.pruneOldHeaders keep) k p) :
    NamesParent c k p := by
  obtain ⟨h', hk, h0, hp⟩ := h
  exact ⟨h', (headers_prune_eq_some.mp hk).1, h0, hp⟩

theorem Inv.prune (hI : Inv c) (hfloor : keep = pruningFloor c)
    (hparents : ∀ (k : Bytes32) (h : BatchHeader), c.headers[k]? = some h → keep < h.height →
      ∃ p, c.headers[h.parentHash]? = some p ∧ p.height + 1 = h.height) :
    Inv (c.pruneOldHeaders keep) := by
  refine ⟨⟨?_, ?_, ?_, ?_⟩, ?_⟩
  · intro k h hk hlt
    have hlt' : keep < h.height := hfloor ▸ hlt
    obtain ⟨p, hp, hph⟩ := hparents k h (headers_prune_eq_some.mp hk).1 hlt'
    exact ⟨p, headers_prune_eq_some.mpr ⟨hp, by omega⟩, hph⟩
  · exact hI.acyclic.mono fun k p => namesParent_prune
  · intro height
    rw [hashesAt_prune]
    split_ifs
    · exact List.nodup_nil
    · exact (hI.once height).filter _
  · intro height k
    rw [hashesAt_prune]
    split_ifs with hlow
    · constructor
      · exact fun h => absurd h List.not_mem_nil
      · rintro ⟨h, hk, rfl⟩
        exact absurd (headers_prune_eq_some.mp hk).2 (by omega)
    · rw [List.mem_filter, hI.listed, Std.ExtTreeMap.contains_iff_mem]
      constructor
      · rintro ⟨⟨h, hk, hheight⟩, -⟩
        exact ⟨h, headers_prune_eq_some.mpr ⟨hk, by omega⟩, hheight⟩
      · rintro ⟨h, hk, hheight⟩
        exact ⟨⟨h, (headers_prune_eq_some.mp hk).1, hheight⟩, by
          rw [Std.ExtTreeMap.mem_iff_isSome_getElem?, hk]
          rfl⟩
  · intro k h hk
    exact hI.rooted k h (headers_prune_eq_some.mp hk).1

end Prune

theorem Inv.finalizeHeight {c : BlockChain} (hI : Inv c) (height : ℕ) : Inv (c.finalizeHeight height) := by
  unfold BlockChain.finalizeHeight
  split_ifs with hlt hmax
  · -- the floor rises to the height that is pruned to
    have hI' : Inv { c with lastFinalizedHeight := height } := by
      refine ⟨⟨?_, hI.acyclic.mono fun _ _ h => h, hI.once, hI.listed⟩, hI.rooted⟩
      intro k h hk hfloor
      refine hI.parents k h hk ?_
      unfold pruningFloor at hfloor ⊢
      dsimp only at hfloor
      omega
    exact hI'.prune rfl hI'.parents
  · refine ⟨⟨?_, hI.acyclic.mono fun _ _ h => h, hI.once, hI.listed⟩, hI.rooted⟩
    intro k h hk hfloor
    refine hI.parents k h hk ?_
    unfold pruningFloor at hfloor ⊢
    dsimp only at hfloor
    omega
  · exact hI

theorem Inv.call {c : BlockChain} (hI : Inv c) (a : TreeCall) (hfresh : Fresh c a) : Inv (call c a) := by
  cases a with
  | addHeader header =>
    unfold HeaderTree.call
    cases hc : c.checkHeader header with
    | error e =>
      simp only [BlockChain.addHeader, hc]
      exact hI
    | ok u =>
      obtain ⟨hnew, hout⟩ := hfresh hc
      exact hI.addHeader hc hnew hout
  | setCanonicalTip tip totalStake =>
    obtain ⟨hh, hi, hl⟩ := setCanonicalTip_frame c tip totalStake
    exact hI.congr hh hi hl
  | addStakeWeight hash stake => exact hI.congr rfl rfl rfl
  | finalizeHeight height => exact hI.finalizeHeight height

/-! ## The loops -/

section Loops
variable {c : BlockChain}

instance : Finite Bytes32 := Finite.of_injective BitVec.toFin fun _ _ h => BitVec.eq_of_toFin_eq h

theorem getBatchByHeight_terminates (hT : Tree c) (height : ℕ) :
    Terminates (getBatchByHeight c height) := by
  unfold getBatchByHeight
  split_ifs
  · exact ⟨0, rfl⟩
  · refine halts_of_acyclic hT.acyclic id ?_ c.canonicalTip
    intro k k' hturn
    unfold batchByHeightTurn at hturn
    cases hk : c.headers[k]? with
    | none =>
      rw [hk] at hturn
      cases hturn
    | some header =>
      simp only [hk] at hturn
      split_ifs at hturn with heq hlt
      exact ⟨header, hk, by omega, Sum.inl.inj hturn⟩

theorem getCanonicalChain_terminates (hT : Tree c) (fromHeight toHeight : ℕ) :
    Terminates (getCanonicalChain c fromHeight toHeight) := by
  refine halts_of_acyclic hT.acyclic Prod.fst ?_ (c.canonicalTip, [])
  rintro ⟨k, chain⟩ ⟨k', chain'⟩ hturn
  unfold canonicalChainTurn at hturn
  cases hk : c.headers[k]? with
  | none =>
    simp only [hk] at hturn
    cases hturn
  | some header =>
    simp only [hk] at hturn
    by_cases hle : header.height ≤ fromHeight
    · rw [if_pos hle] at hturn
      cases hturn
    · rw [if_neg hle] at hturn
      exact ⟨header, hk, by omega, congrArg Prod.fst (Sum.inl.inj hturn)⟩

theorem findCommonAncestor_terminates (hT : Tree c) (hashA hashB : Bytes32) :
    Terminates (findCommonAncestor c hashA hashB) := by
  obtain ⟨n, hn⟩ : Halts (collectChainTurn c) (hashA, ∅) := by
    refine halts_of_acyclic hT.acyclic Prod.fst ?_ (hashA, ∅)
    rintro ⟨k, chain⟩ ⟨k', chain'⟩ hturn
    unfold collectChainTurn at hturn
    cases hk : c.headers[k]? with
    | none =>
      simp only [hk] at hturn
      cases hturn
    | some header =>
      simp only [hk] at hturn
      split_ifs at hturn with h0
      exact ⟨header, hk, h0, congrArg Prod.fst (Sum.inl.inj hturn)⟩
  obtain ⟨chainA, hA⟩ := Option.isSome_iff_exists.mp hn
  obtain ⟨m, hm⟩ : Halts (commonAncestorTurn c chainA) hashB := by
    refine halts_of_acyclic hT.acyclic id ?_ hashB
    intro k k' hturn
    unfold commonAncestorTurn at hturn
    cases hk : c.headers[k]? with
    | none =>
      rw [hk] at hturn
      cases hturn
    | some header =>
      simp only [hk] at hturn
      split_ifs at hturn with hin h0
      exact ⟨header, hk, h0, Sum.inl.inj hturn⟩
  obtain ⟨r, hr⟩ := Option.isSome_iff_exists.mp hm
  refine ⟨max n m, ?_⟩
  unfold findCommonAncestor
  rw [loop_mono (le_max_left n m) hA, Option.bind_some, loop_mono (le_max_right n m) hr]
  rfl

theorem isOnCanonicalChain_terminates (hT : Tree c) (hash : Bytes32) :
    Terminates (isOnCanonicalChain c hash) := by
  refine halts_of_acyclic hT.acyclic id ?_ c.canonicalTip
  intro k k' hturn
  unfold onCanonicalChainTurn at hturn
  cases hk : c.headers[k]? with
  | none =>
    rw [hk] at hturn
    cases hturn
  | some header =>
    simp only [hk] at hturn
    split_ifs at hturn with heq h0
    exact ⟨header, hk, h0, Sum.inl.inj hturn⟩

/-- The header of `k`, whatever its height, names `p` as its parent. -/
def Follows (c : BlockChain) (k p : Bytes32) : Prop := ∃ h, c.headers[k]? = some h ∧ h.parentHash = p

theorem chainBetweenTurn_of_ne {lower k : Bytes32} (hne : k ≠ lower) {h : BatchHeader}
    (hk : c.headers[k]? = some h) (chain : List BatchHeader) :
    chainBetweenTurn c lower (k, chain) = .inl (h.parentHash, chain ++ [h]) := by
  simp only [chainBetweenTurn, if_neg hne, hk]

theorem chainBetween_halts_self (lower : Bytes32) (chain : List BatchHeader) :
    Halts (chainBetweenTurn c lower) (lower, chain) := by
  have hstop : chainBetweenTurn c lower (lower, chain) = .inr chain.reverse := by
    simp only [chainBetweenTurn, if_pos]
  exact halts_of_inr hstop

theorem chainBetween_halts_of_met {lower upper : Bytes32} (h : ReflTransGen (Follows c) upper lower)
    (chain : List BatchHeader) : Halts (chainBetweenTurn c lower) (upper, chain) := by
  induction h using ReflTransGen.head_induction_on generalizing chain with
  | refl => exact chainBetween_halts_self lower chain
  | @head k p hkp _ ih =>
    obtain ⟨h, hk, rfl⟩ := hkp
    by_cases he : k = lower
    · rw [he]
      exact chainBetween_halts_self lower chain
    · exact halts_of_inl (chainBetweenTurn_of_ne he hk chain) (ih _)

/-- The walk ends if it meets no header of height `0`: it goes down a relation without cycles. -/
theorem chainBetween_halts_of_unrooted (hT : Tree c) {lower upper : Bytes32}
    (hroot : ∀ (g : Bytes32) (h : BatchHeader), ReflTransGen (Follows c) upper g →
      c.headers[g]? = some h → h.height ≠ 0) (chain : List BatchHeader) :
    Halts (chainBetweenTurn c lower) (upper, chain) := by
  induction upper using hT.acyclic.wellFounded.induction generalizing chain with
  | _ k ih =>
    by_cases he : k = lower
    · rw [he]
      exact chainBetween_halts_self lower chain
    · cases hk : c.headers[k]? with
      | none =>
        have hstop : chainBetweenTurn c lower (k, chain) = .inr chain.reverse := by
          simp only [chainBetweenTurn, if_neg he, hk]
        exact halts_of_inr hstop
      | some h =>
        have hlink : NamesParent c k h.parentHash := ⟨h, hk, hroot k h ReflTransGen.refl hk, rfl⟩
        refine halts_of_inl (chainBetweenTurn_of_ne he hk chain) (ih _ hlink ?_ _)
        exact fun g h' hg => hroot g h' (hg.head ⟨h, hk, rfl⟩)

/-- **`get_chain_between`** ends iff the lower end is met, or no header of height `0` is: the header of
height `0` is its own parent, and the walk does not stop there. -/
theorem getChainBetween_terminates_iff (hI : Inv c) (lower upper : Bytes32) :
    Terminates (getChainBetween c lower upper) ↔
      ReflTransGen (Follows c) upper lower ∨
        ∀ (g : Bytes32) (h : BatchHeader), ReflTransGen (Follows c) upper g →
          c.headers[g]? = some h → h.height ≠ 0 := by
  constructor
  · intro hterm
    by_contra hnot
    obtain ⟨hmiss, hroot⟩ := not_or.mp hnot
    push Not at hroot
    obtain ⟨g, root, hg, hroot, h0⟩ := hroot
    -- the walk stays between the upper end and the header of height `0`
    refine not_halts (I := fun s => ReflTransGen (Follows c) upper s.1 ∧
      ReflTransGen (Follows c) s.1 g) ?_ ⟨ReflTransGen.refl, hg⟩ hterm
    rintro ⟨k, chain⟩ ⟨hup, hdown⟩
    have hne : k ≠ lower := by
      rintro rfl
      exact hmiss hup
    rcases ReflTransGen.cases_head hdown with rfl | ⟨p, ⟨h, hk, rfl⟩, hrest⟩
    · refine ⟨_, chainBetweenTurn_of_ne hne hroot chain, ?_⟩
      dsimp only
      rw [hI.rooted _ _ hroot h0]
      exact ⟨hup, hdown⟩
    · exact ⟨_, chainBetweenTurn_of_ne hne hk chain, hup.tail ⟨h, hk, rfl⟩, hrest⟩
  · rintro (hmet | hroot)
    · exact chainBetween_halts_of_met hmet []
    · exact chainBetween_halts_of_unrooted hI.toTree hroot []

end Loops

/-- **The header tree of fresh runs.** After every run from the new chain whose accepted headers are
fresh, every header above the pruning floor has its parent one lower, no header is its own ancestor, the
index lists the stored hashes of each height once, and the readers return; `get_chain_between` returns
where it meets its lower end or no header of height `0`. -/
theorem tree_of_fresh (prim : Primitives) (calls : List TreeCall)
    (hfresh : Along call Fresh (BlockChain.new prim) calls) :
    let c := run call (BlockChain.new prim) calls
    Tree c ∧ (∀ height, Terminates (getBatchByHeight c height)) ∧
      (∀ fromHeight toHeight, Terminates (getCanonicalChain c fromHeight toHeight)) ∧
      (∀ hashA hashB, Terminates (findCommonAncestor c hashA hashB)) ∧
      (∀ hash, Terminates (isOnCanonicalChain c hash)) ∧
      ∀ lower upper, Terminates (getChainBetween c lower upper) ↔
        ReflTransGen (Follows c) upper lower ∨
          ∀ (g : Bytes32) (h : BatchHeader), ReflTransGen (Follows c) upper g →
            c.headers[g]? = some h → h.height ≠ 0 := by
  intro c
  have hI : Inv c := hfresh.invariant (fun _ a hs hf => hs.call a hf) (inv_new prim)
  have hT := hI.toTree
  exact ⟨hT, getBatchByHeight_terminates hT, getCanonicalChain_terminates hT,
    findCommonAncestor_terminates hT, isOnCanonicalChain_terminates hT,
    getChainBetween_terminates_iff hI⟩

theorem fresh_of_unnamed {c : BlockChain} {header : BatchHeader} (hnone : c.headers[header.batchHash]? = none)
    (hne : header.parentHash ≠ header.batchHash)
    (hnamed : (c.headers.toList.all fun e => decide (e.2.parentHash ≠ header.batchHash)) = true) :
    Fresh c (.addHeader header) := by
  refine fun _ => ⟨hnone, fun hpath => ?_⟩
  rcases ReflTransGen.cases_tail hpath with he | ⟨k, -, h, hk, -, hparent⟩
  · exact hne he.symm
  · exact of_decide_eq_true
      (List.all_eq_true.mp hnamed _ (Std.ExtTreeMap.mem_toList_iff_getElem?_eq_some.mpr hk)) hparent

theorem tree_of_first_block :
    Tree (run call (BlockChain.new idlePrim) [.addHeader (firstBlock 1 []), .addHeader childBlock]) := by
  have hfirst : Fresh (BlockChain.new idlePrim) (.addHeader (firstBlock 1 [])) :=
    fresh_of_unnamed (by decide +kernel) (by decide) (by decide +kernel)
  have hchild : Fresh (call (BlockChain.new idlePrim) (.addHeader (firstBlock 1 []))) (.addHeader childBlock) :=
    fresh_of_unnamed (by decide +kernel) (by decide) (by decide +kernel)
  exact (tree_of_fresh idlePrim [.addHeader (firstBlock 1 []), .addHeader childBlock] ⟨hfirst, hchild, trivial⟩).1

/-- **A header that is added twice** is listed twice. -/
theorem header_listed_twice :
    ¬ ∀ (prim : Primitives) (calls : List TreeCall),
      let c := run call (BlockChain.new prim) calls
      Tree c ∧ (∀ height, Terminates (getBatchByHeight c height)) ∧
        (∀ fromHeight toHeight, Terminates (getCanonicalChain c fromHeight toHeight)) ∧
        (∀ hashA hashB, Terminates (findCommonAncestor c hashA hashB)) ∧
        (∀ hash, Terminates (isOnCanonicalChain c hash)) ∧
        ∀ lower upper, Terminates (getChainBetween c lower upper) := by
  intro h
  have honce := (h idlePrim [.addHeader (firstBlock 1 []), .addHeader (firstBlock 1 [])]).1.once 1
  revert honce
  decide +kernel

/-- The walk down from the genesis header to a hash that is not stored does not end. -/
theorem chain_between_runs_on (prim : Primitives) :
    ¬ Terminates (getChainBetween (BlockChain.new prim) 1 0) := by
  rw [getChainBetween_terminates_iff (inv_new prim)]
  have hgenesis : (BlockChain.new prim).headers[(0 : Bytes32)]? = some (genesis prim) := by
    rw [BlockChain.new, Std.ExtTreeMap.getElem?_insert_self]
  rintro (hpath | hroot)
  · have hstay : ∀ k, ReflTransGen (Follows (BlockChain.new prim)) 0 k → k = 0 := by
      intro k hk
      induction hk with
      | refl => rfl
      | tail _ hstep ih =>
        obtain ⟨h, hk, rfl⟩ := hstep
        rw [ih, hgenesis] at hk
        obtain rfl := Option.some.inj hk
        rfl
    exact absurd (hstay 1 hpath) (by decide)
  · exact hroot 0 _ ReflTransGen.refl hgenesis rfl

end TruthLinked.Consensus.HeaderTree
