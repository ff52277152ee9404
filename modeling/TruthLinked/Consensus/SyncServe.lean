import TruthLinked.Consensus.SyncOrder
import TruthLinked.Staking.Slash

/-! # The two sides of block sync

`handle_sync_request` serves a range of blocks behind an anchor, `validate_sync_response_shape` checks it on
the other side. What is served passes the check if every header is stored under its own height. The check
itself accepts more than the shape of a range (`Shape`): one block for a range that ends before it begins, and
one at the last height of `u64` (`Degenerate`). -/

namespace TruthLinked.Consensus.SyncServe

open Core.Types Core.Manifest Staking.State Staking.Slash Consensus.Types Consensus.NodeState Consensus.Sync
open Consensus.ExecutionOrder Consensus.SyncSafety Consensus.SyncOrder Lib.Except

/-! ## Serving -/

/-- A block with its results. -/
structure ServedBlock where
  block : Block
  results : List String

/-- `load_batch`. -/
def loadBatch (st : Storage) (height : ℕ) : Option (List Transaction) := st.batches[height]?.map Prod.snd

section
variable (c : Setup) (loadBlockResults : ℕ → Option (List String))

/-- The blocks of a request, `count` of them from a height. -/
def loadRange (st : Storage) (fromHeight toHeight : ℕ) :
    (count height : ℕ) → (expectedParent : Bytes32) → Except String (List ServedBlock)
  | 0, _, _ => pure []
  | count + 1, height, expectedParent =>
    match st.loadBatchHeaderByHeight height with
    | some header => do
      failIf (header.parentHash ≠ expectedParent)
        (s!"Stored block {height} does not extend requested anchor/chain: expected parent " ++
          s!"{hexEncode expectedParent}, got {hexEncode header.parentHash}")
      let batch := (loadBatch st height).getD []
      let results := (loadBlockResults height).getD (List.replicate batch.length "unknown")
      let rest ← loadRange st fromHeight toHeight count (height + 1) header.batchHash
      pure (⟨⟨header, batch⟩, results⟩ :: rest)
    | none => throw s!"Cannot serve sync range {fromHeight}-{toHeight}: missing block {height}"

/-- `handle_sync_request`. -/
def handleSyncRequest (n : Node) (fromHeight toHeight anchorHeight : ℕ) (anchorHash : Bytes32) :
    Except String (List ServedBlock) := do
  let storage ← okOr n.storage "Storage not initialized"
  failIf (fromHeight = 0 ∨ satAdd64 anchorHeight 1 ≠ fromHeight)
    (s!"Invalid sync anchor: anchor height {anchorHeight} does not precede request " ++
      s!"{fromHeight}-{toHeight}")
  let range := toHeight - fromHeight
  let maxRange := max (n.world.globals.getU64 c.env "sync.max_batch_range") 100
  failIf (maxRange < range) s!"Range too large: {range} (max {maxRange})"
  let myHeight := n.finalizedHeight
  failIf (myHeight < fromHeight) s!"Requested height {fromHeight} > my finalized height {myHeight}"
  let localAnchor ← okOr (localAnchorHash n anchorHeight)
      s!"Missing requested sync anchor at height {anchorHeight}"
  failIf (localAnchor ≠ anchorHash)
    (s!"Sync anchor mismatch at height {anchorHeight}: requested {hexEncode anchorHash}, " ++
      s!"local {hexEncode localAnchor}")
  let actualTo := min toHeight myHeight
  failIf (actualTo < toHeight)
    s!"Cannot serve full sync range {fromHeight}-{toHeight}: finalized height is {myHeight}"
  let blocks ← loadRange loadBlockResults storage fromHeight toHeight (actualTo + 1 - fromHeight)
      fromHeight anchorHash
  let expectedLen := satAdd64 (actualTo - fromHeight) 1
  failIf (blocks.length ≠ expectedLen)
    (s!"Cannot serve complete sync range {fromHeight}-{toHeight}: have {blocks.length} of " ++
      s!"{expectedLen} blocks")
  pure blocks

/-- The response to a request, which echoes it. -/
def echo (n : Node) (fromHeight toHeight anchorHeight : ℕ) (anchorHash : Bytes32) (served : List ServedBlock) :
    SyncResponse where
  requestFromHeight := fromHeight
  requestToHeight := toHeight
  requestAnchorHeight := anchorHeight
  requestAnchorHash := anchorHash
  responderHeight := n.finalizedHeight
  blocks := served.map ServedBlock.block

end

/-! ## The shape of a range -/

/-- Each header extends the one before it. -/
def Linked : (parent : Bytes32) → List BatchHeader → Prop
  | _, [] => True
  | parent, header :: rest => header.parentHash = parent ∧ Linked header.batchHash rest

/-- A response with the blocks of its request behind the anchor. -/
structure Shape (r : SyncResponse) : Prop where
  anchor : r.requestFromHeight = r.requestAnchorHeight + 1
  order : r.requestFromHeight ≤ r.requestToHeight
  responder : r.requestToHeight ≤ r.responderHeight
  heights : (r.blocks.map Block.header).map BatchHeader.height =
    List.range' r.requestFromHeight (r.requestToHeight + 1 - r.requestFromHeight)
  linked : Linked r.requestAnchorHash (r.blocks.map Block.header)

/-- The numbers of a message are in the range of `u64`. -/
structure InRange (r : SyncResponse) : Prop where
  anchor : r.requestAnchorHeight < u64
  fromHeight : r.requestFromHeight < u64
  toHeight : r.requestToHeight < u64

/-- One block behind the anchor, for a range that ends before it begins or whose anchor is the last height
there is. -/
structure Degenerate (r : SyncResponse) : Prop where
  range : r.requestToHeight < r.requestFromHeight ∨ r.requestAnchorHeight = u64 - 1
  positive : r.requestFromHeight ≠ 0
  anchor : satAdd64 r.requestAnchorHeight 1 = r.requestFromHeight
  responder : r.requestToHeight ≤ r.responderHeight
  single : ∃ b, r.blocks = [b] ∧ b.header.height = r.requestFromHeight ∧ b.header.parentHash = r.requestAnchorHash

section Check
variable {r : SyncResponse} {height : ℕ} {parent : Bytes32} {headers : List BatchHeader}

/-- **The loop of the check**, where no height of the range leaves `u64`. -/
theorem checkContiguous_eq_ok (h : height + headers.length ≤ u64) :
    checkContiguous height parent headers = .ok () ↔
      headers.map BatchHeader.height = List.range' height headers.length ∧ Linked parent headers := by
  induction headers generalizing height parent with
  | nil => exact iff_of_true rfl ⟨rfl, trivial⟩
  | cons header rest ih =>
    rw [List.length_cons] at h
    rw [checkContiguous, failIf_bind_ok, failIf_bind_ok, List.map_cons, List.length_cons, List.range'_succ,
      List.cons.injEq, Linked]
    have hrest : checkContiguous (satAdd64 height 1) header.batchHash rest = .ok () ↔
        rest.map BatchHeader.height = List.range' (height + 1) rest.length ∧ Linked header.batchHash rest := by
      cases rest with
      | nil => exact iff_of_true rfl ⟨rfl, trivial⟩
      | cons next rest =>
        rw [List.length_cons] at h
        rw [satAdd64_eq (by omega)]
        exact ih (by rw [List.length_cons]; omega)
    rw [hrest, not_not, not_not]
    tauto

theorem validate_eq_ok : validateSyncResponseShape r = .ok () ↔
    r.blocks.map Block.header ≠ [] ∧ r.requestFromHeight ≠ 0 ∧
      satAdd64 r.requestAnchorHeight 1 = r.requestFromHeight ∧
      r.blocks.length = satAdd64 (r.requestToHeight - r.requestFromHeight) 1 ∧
      r.requestToHeight ≤ r.responderHeight ∧
      checkContiguous r.requestFromHeight r.requestAnchorHash (r.blocks.map Block.header) = .ok () := by
  unfold validateSyncResponseShape
  dsimp only
  rw [failIf_bind_ok, failIf_bind_ok, failIf_bind_ok, failIf_bind_ok, List.length_map,
    not_or, not_not, not_not, not_lt]
  tauto

theorem linked_singleton {header : BatchHeader} : Linked parent [header] ↔ header.parentHash = parent :=
  and_iff_left trivial

/-- **A proper range**: what the check accepts is its shape. -/
theorem validate_iff_shape (hr : InRange r) (horder : r.requestFromHeight ≤ r.requestToHeight)
    (hanchor : r.requestAnchorHeight + 1 < u64) : validateSyncResponseShape r = .ok () ↔ Shape r := by
  have hto := hr.toHeight
  rw [validate_eq_ok, satAdd64_eq hanchor]
  have hcontiguous : 0 < r.requestFromHeight →
      r.blocks.length = r.requestToHeight + 1 - r.requestFromHeight →
      (checkContiguous r.requestFromHeight r.requestAnchorHash (r.blocks.map Block.header) = .ok () ↔
        (r.blocks.map Block.header).map BatchHeader.height =
            List.range' r.requestFromHeight (r.requestToHeight + 1 - r.requestFromHeight) ∧
          Linked r.requestAnchorHash (r.blocks.map Block.header)) := by
    intro hpos hlen
    rw [checkContiguous_eq_ok (by rw [List.length_map, hlen]; omega), List.length_map, hlen]
  constructor
  · rintro ⟨hne, hpos, heq, hlen, hresponder, hloop⟩
    rw [satAdd64_eq (by omega)] at hlen
    obtain ⟨hheights, hlinked⟩ := (hcontiguous (by omega) (by omega)).mp hloop
    exact ⟨heq.symm, horder, hresponder, hheights, hlinked⟩
  · rintro ⟨heq, -, hresponder, hheights, hlinked⟩
    have hlen : r.blocks.length = r.requestToHeight + 1 - r.requestFromHeight := by
      have hmap := congrArg List.length hheights
      rwa [List.length_map, List.length_map, List.length_range'] at hmap
    refine ⟨?_, by omega, heq.symm, ?_, hresponder, (hcontiguous (by omega) hlen).mpr ⟨hheights, hlinked⟩⟩
    · rw [Ne, List.map_eq_nil_iff, ← List.length_eq_zero_iff, hlen]
      omega
    · rw [satAdd64_eq (by omega), hlen]
      omega

/-- **Any other range** counts as one of one block. -/
theorem validate_iff_degenerate (hr : InRange r)
    (hrange : r.requestToHeight < r.requestFromHeight ∨ r.requestAnchorHeight = u64 - 1) :
    validateSyncResponseShape r = .ok () ↔ Degenerate r := by
  have hu : 1 < u64 := by decide
  have hto := hr.toHeight
  have hfrom := hr.fromHeight
  have hlen : satAdd64 r.requestAnchorHeight 1 = r.requestFromHeight →
      satAdd64 (r.requestToHeight - r.requestFromHeight) 1 = 1 := by
    intro hanchor
    have hzero : r.requestToHeight - r.requestFromHeight = 0 := by
      rcases hrange with hlt | hlast
      · omega
      · have hmax : r.requestFromHeight = u64 - 1 := by
          rw [← hanchor, hlast]
          exact min_eq_right (by omega)
        omega
    rw [hzero]
    rfl
  rw [validate_eq_ok]
  constructor
  · rintro ⟨-, hpos, hanchor, hcount, hresponder, hloop⟩
    rw [hlen hanchor, List.length_eq_one_iff] at hcount
    obtain ⟨b, hb⟩ := hcount
    rw [hb, checkContiguous_eq_ok (by simp; omega)] at hloop
    exact ⟨hrange, hpos, hanchor, hresponder, b, hb, (List.cons.inj hloop.1).1, linked_singleton.mp hloop.2⟩
  · rintro ⟨-, hpos, hanchor, hresponder, b, hb, hheight, hparent⟩
    rw [hlen hanchor, hb]
    refine ⟨by simp, hpos, hanchor, rfl, hresponder, (checkContiguous_eq_ok (by simp; omega)).mpr ⟨?_, ?_⟩⟩
    · simp [hheight]
    · exact linked_singleton.mpr hparent

/-- **When the check is the shape**: on all messages but the degenerate ones. -/
theorem shape_checked_iff (hr : InRange r) :
    (validateSyncResponseShape r = .ok () ↔ Shape r) ↔ ¬ Degenerate r := by
  by_cases hrange : r.requestToHeight < r.requestFromHeight ∨ r.requestAnchorHeight = u64 - 1
  · have hshape : ¬ Shape r := by
      have hfrom := hr.fromHeight
      rintro ⟨heq, horder, -, -, -⟩
      omega
    rw [validate_iff_degenerate hr hrange]
    tauto
  · obtain ⟨horder, hlast⟩ := not_or.mp hrange
    have hanchor := hr.anchor
    refine iff_of_true (validate_iff_shape hr (by omega) (by omega)) fun h => hrange h.range

end Check

/-! ## What is served -/

section Server
variable {c : Setup} {loadBlockResults : ℕ → Option (List String)} {st : Storage} {n : Node}
variable {fromHeight toHeight anchorHeight : ℕ} {anchorHash : Bytes32} {served : List ServedBlock}

/-- The header of a served block. -/
def ServedBlock.header (s : ServedBlock) : BatchHeader := s.block.header

/-- **The loop of the server**: the stored headers of the heights, each extending the one before it. -/
theorem loadRange_spec {count height : ℕ} {parent : Bytes32}
    (h : loadRange loadBlockResults st fromHeight toHeight count height parent = .ok served) :
    (List.range' height count).map st.loadBatchHeaderByHeight = served.map (some ∘ ServedBlock.header) ∧
      Linked parent (served.map ServedBlock.header) := by
  induction count generalizing height parent served with
  | zero =>
    cases pure_eq_ok.mp h
    exact ⟨rfl, trivial⟩
  | succ count ih =>
    rw [loadRange] at h
    cases hload : st.loadBatchHeaderByHeight height with
    | none =>
      rw [hload] at h
      cases h
    | some header =>
      rw [hload] at h
      dsimp only at h
      rw [failIf_bind_ok, not_not] at h
      obtain ⟨hparent, h⟩ := h
      obtain ⟨rest, hrest, heq⟩ := bind_eq_ok.mp h
      cases pure_eq_ok.mp heq
      obtain ⟨hheaders, hlinked⟩ := ih hrest
      rw [List.range'_succ, List.map_cons, List.map_cons, hload, hheaders]
      exact ⟨rfl, hparent, hlinked⟩

/-- The headers that a node has stored for the heights of a range are of these heights. -/
def StoredInPlace (st : Storage) (fromHeight toHeight : ℕ) : Prop :=
  ∀ height, fromHeight ≤ height → height ≤ toHeight →
    ∀ header, st.loadBatchHeaderByHeight height = some header → header.height = height

theorem heights_iff {load : ℕ → Option BatchHeader} {hs : List ℕ} {headers : List BatchHeader}
    (h : hs.map load = headers.map some) : headers.map BatchHeader.height = hs ↔
      ∀ height ∈ hs, ∀ header, load height = some header → header.height = height := by
  induction hs generalizing headers with
  | nil =>
    obtain rfl := List.map_eq_nil_iff.mp h.symm
    exact iff_of_true rfl fun _ hx => nomatch hx
  | cons height hs ih =>
    cases headers with
    | nil => cases h
    | cons header headers =>
      obtain ⟨hload, hrest⟩ := List.cons.inj h
      rw [List.map_cons, List.cons.injEq, List.forall_mem_cons, ih hrest, hload]
      simp

theorem handleSyncRequest_spec
    (h : handleSyncRequest c loadBlockResults n fromHeight toHeight anchorHeight anchorHash = .ok served) :
    ∃ st, n.storage = some st ∧ fromHeight ≠ 0 ∧ satAdd64 anchorHeight 1 = fromHeight ∧ fromHeight ≤ toHeight ∧
      toHeight ≤ n.finalizedHeight ∧
      loadRange loadBlockResults st fromHeight toHeight (toHeight + 1 - fromHeight) fromHeight anchorHash =
        .ok served := by
  unfold handleSyncRequest at h
  rw [okOr_bind_ok] at h
  obtain ⟨st, hst, h⟩ := h
  dsimp only at h
  rw [failIf_bind_ok, failIf_bind_ok, failIf_bind_ok, okOr_bind_ok] at h
  obtain ⟨hanchor, hrange, hheight, local', hlocal, h⟩ := h
  rw [failIf_bind_ok, failIf_bind_ok] at h
  obtain ⟨hsame, hfull, h⟩ := h
  obtain ⟨blocks, hload, h⟩ := bind_eq_ok.mp h
  rw [failIf_bind_ok] at h
  obtain ⟨hlen, h⟩ := h
  cases pure_eq_ok.mp h
  obtain ⟨hpos, heq⟩ := not_or.mp hanchor
  have hmin : min toHeight n.finalizedHeight = toHeight := by omega
  rw [hmin] at hload hlen
  refine ⟨st, hst, hpos, not_not.mp heq, ?_, by omega, hload⟩
  by_contra hlt
  rw [show toHeight + 1 - fromHeight = 0 by omega, loadRange] at hload
  cases pure_eq_ok.mp hload
  rw [show toHeight - fromHeight = 0 by omega] at hlen
  exact hlen (by decide)

/-- **What is served passes the check** exactly if every header of the range is stored under its own
height. -/
theorem served_accepted_iff (hto : toHeight < u64) (hst : n.storage = some st)
    (h : handleSyncRequest c loadBlockResults n fromHeight toHeight anchorHeight anchorHash = .ok served) :
    validateSyncResponseShape (echo n fromHeight toHeight anchorHeight anchorHash served) = .ok () ↔
      StoredInPlace st fromHeight toHeight := by
  obtain ⟨st', hst', hpos, hanchor, horder, hheight, hload⟩ := handleSyncRequest_spec h
  obtain rfl := Option.some.inj (hst.symm.trans hst')
  obtain ⟨hheaders, hlinked⟩ := loadRange_spec hload
  have hblocks : (echo n fromHeight toHeight anchorHeight anchorHash served).blocks.map Block.header =
      served.map ServedBlock.header := List.map_map
  have hlen : served.length = toHeight + 1 - fromHeight := by
    have hmap := congrArg List.length hheaders
    rw [List.length_map, List.length_map, List.length_range'] at hmap
    exact hmap.symm
  have hplace : (served.map ServedBlock.header).map BatchHeader.height =
      List.range' fromHeight (toHeight + 1 - fromHeight) ↔ StoredInPlace st fromHeight toHeight := by
    rw [heights_iff (hheaders.trans List.map_map.symm)]
    simp only [List.mem_range'_1]
    refine ⟨fun hall height hge hle => hall height ⟨hge, by omega⟩, fun hall height hin =>
      hall height hin.1 (by omega)⟩
  rw [validate_eq_ok, hblocks]
  change _ ∧ fromHeight ≠ 0 ∧ satAdd64 anchorHeight 1 = fromHeight ∧
    (served.map ServedBlock.block).length = satAdd64 (toHeight - fromHeight) 1 ∧ toHeight ≤ n.finalizedHeight ∧
    checkContiguous fromHeight anchorHash _ = .ok () ↔ _
  have hcount : satAdd64 (toHeight - fromHeight) 1 = toHeight - fromHeight + 1 := satAdd64_eq (by omega)
  rw [checkContiguous_eq_ok (by rw [List.length_map, hlen]; omega), List.length_map,
    List.length_map, hlen, hplace, hcount]
  have hne : served.map ServedBlock.header ≠ [] := by
    rw [Ne, List.map_eq_nil_iff, ← List.length_eq_zero_iff, hlen]
    omega
  constructor
  · exact fun hall => hall.2.2.2.2.2.1
  · exact fun hstored => ⟨hne, hpos, hanchor, by omega, hheight, hstored, hlinked⟩

end Server

/-- **The two sides of block sync.** The response to a request that is answered passes the check of the other
side exactly if the server has every header of the range under its own height; and the check accepts the
responses of the shape of a range, and no others, on all messages but the degenerate ones. -/
theorem sync_sides_agree_iff (c : Setup) (loadBlockResults : ℕ → Option (List String)) :
    (∀ n st fromHeight toHeight anchorHeight anchorHash served, toHeight < u64 →
      n.storage = some st →
      handleSyncRequest c loadBlockResults n fromHeight toHeight anchorHeight anchorHash = .ok served →
      (validateSyncResponseShape (echo n fromHeight toHeight anchorHeight anchorHash served) = .ok () ↔
        StoredInPlace st fromHeight toHeight)) ∧
    ∀ r, InRange r → ((validateSyncResponseShape r = .ok () ↔ Shape r) ↔ ¬ Degenerate r) :=
  ⟨fun _ _ _ _ _ _ _ hto hst h => served_accepted_iff hto hst h, fun _ hr => shape_checked_iff hr⟩

/-! ## A header out of place, and a range that ends before it begins -/

def misplacedStorage : Storage where
  headers := (∅ : Map Bytes32 BatchHeader).insert emptyCommitment (blockHeader 2 0 emptyCommitment soleKey [] 0)
  anchors := (∅ : Map ℕ Bytes32).insert 1 emptyCommitment
  batches := ∅
  snapshots := ∅
  fullNode := true

def misplacedNode : Node := { jailNode 5 with storage := some misplacedStorage, finalizedHeight := 1 }

def backwardResponse : SyncResponse := ⟨5, 3, 4, 0, 5, [⟨blockHeader 5 0 emptyCommitment soleKey [] 0, []⟩]⟩

theorem misplaced_facts :
    (match handleSyncRequest orderSetup (fun _ => none) misplacedNode 1 1 0 0 with
      | .ok served => decide (validateSyncResponseShape (echo misplacedNode 1 1 0 0 served) ≠ .ok ())
      | .error _ => false) = true ∧ validateSyncResponseShape backwardResponse = .ok () := by
  decide +kernel

theorem sync_sides_disagree :
    (∃ served, handleSyncRequest orderSetup (fun _ => none) misplacedNode 1 1 0 0 = .ok served ∧
      validateSyncResponseShape (echo misplacedNode 1 1 0 0 served) ≠ .ok ()) ∧
    validateSyncResponseShape backwardResponse = .ok () ∧ ¬ Shape backwardResponse := by
  obtain ⟨hserve, hcheck⟩ := misplaced_facts
  refine ⟨?_, hcheck, fun h => absurd h.order (by decide)⟩
  cases hhandle : handleSyncRequest orderSetup (fun _ => none) misplacedNode 1 1 0 0 with
  | error e =>
    rw [hhandle] at hserve
    cases hserve
  | ok served =>
    rw [hhandle] at hserve
    exact ⟨served, rfl, of_decide_eq_true hserve⟩

end TruthLinked.Consensus.SyncServe
