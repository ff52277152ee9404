import TruthLinked.DonaDb.Lookup

/-! # The chain of versions of a key

Every fold gives the index the offset of a key's newest version in the block, its last put or else its
last tombstone, and patches the offset of the version before it into that put. So the versions of a key
in the active segment form a chain (`Linked`) that starts at the index and, past the first block of the
segment, goes on with an offset of an older one. `Chained` says so for histories that write to shard 0
only, whatever the blocks do. -/

namespace TruthLinked.DonaDb.Versions

open Core.Types Lib.Table DonaDb.Log DonaDb.Fold DonaDb.Cache DonaDb.Block DonaDb.Engine DonaDb.History
open DonaDb.Lookup

variable {blake3 : Bytes → Bytes32} {w w' : World} {segs parts : List (List Record)} {pend rs : List Record}
  {index : ShardIndex} {key : Bytes32} {r : Record}

/-- From `off` on the chain runs through the versions of the key in the blocks `parts`, the newest first,
and ends with `base`. -/
def Linked (key : Bytes32) (base : ℕ) : List (List Record) → ℕ → Prop
  | [], off => off = base
  | rs :: older, off =>
    match lastPut rs key, lastTombstone rs key with
    | some r, _ => off = r.offset ∧ Linked key base older r.prevOffset
    | none, some t => off = t.offset
    | none, none => Linked key base older off

/-- Blocks without the key leave the chain where it is. -/
theorem linked_untouched {base off : ℕ} {older : List (List Record)}
    (h : ∀ rs ∈ older, lastPut rs key = none ∧ lastTombstone rs key = none) :
    Linked key base older off ↔ off = base := by
  induction older with
  | nil => exact Iff.rfl
  | cons rs older ih =>
    obtain ⟨⟨hput, htomb⟩, hrest⟩ := List.forall_mem_cons.mp h
    rw [Linked, hput, htomb]
    exact ih hrest

/-! ## What a fold patches -/

theorem prevOffset_patched {l : List (Bytes32 × Bytes32 × ℕ)} (hin : ∃ p ∈ l, p.2.2 = r.offset)
    (hkey : ∀ p ∈ l, p.2.2 = r.offset → p.1 = key) (hzero : r.prevOffset = 0)
    (hsmall : oldOffset index key < 2 ^ 64) : (patched index l r).prevOffset = oldOffset index key := by
  -- over the whole list: patched with this offset, or not yet met
  have hstep : ∀ (l : List (Bytes32 × Bytes32 × ℕ)) (q : Record), q.offset = r.offset →
      (∀ p ∈ l, p.2.2 = r.offset → p.1 = key) → q.prevOffset = oldOffset index key →
      (patched index l q).prevOffset = oldOffset index key := by
    intro l
    induction l with
    | nil => exact fun q _ _ hq => hq
    | cons p l ih =>
      intro q hoff hl hq
      obtain ⟨hp, hl⟩ := List.forall_mem_cons.mp hl
      rw [patched_cons]
      refine ih _ (by rw [patched_offset, hoff]) hl ?_
      unfold patched
      rw [List.foldl_cons, List.foldl_nil]
      split
      case isTrue hmeet =>
        rw [hp (hmeet.1.symm.trans hoff)]
        exact Nat.mod_eq_of_lt hsmall
      case isFalse => exact hq
  induction l with
  | nil =>
    obtain ⟨p, hp, -⟩ := hin
    cases hp
  | cons p l ih =>
    obtain ⟨hp, hl⟩ := List.forall_mem_cons.mp hkey
    rw [patched_cons]
    by_cases hmeet : p.2.2 = r.offset
    · refine hstep l _ (patched_offset _ _ _) hl ?_
      obtain rfl := hp hmeet
      unfold patched
      rw [List.foldl_cons, List.foldl_nil]
      split
      case isTrue => exact Nat.mod_eq_of_lt hsmall
      case isFalse hnot =>
        rw [hzero]
        by_contra hne
        exact hnot ⟨hmeet.symm, by omega⟩
    · have hsame : patched index [p] r = r := by
        unfold patched
        rw [List.foldl_cons, List.foldl_nil]
        exact if_neg fun h => hmeet h.1.symm
      rw [hsame]
      refine ih ?_ hl
      obtain ⟨q, hq, hqo⟩ := hin
      rcases List.mem_cons.mp hq with rfl | hq
      · exact absurd hqo hmeet
      · exact ⟨q, hq, hqo⟩

theorem ascending_inj {q : Record} (h : Ascending rs) (hq : q ∈ rs) (hr : r ∈ rs)
    (heq : q.offset = r.offset) : q = r := by
  obtain ⟨i, hi, rfl⟩ := List.getElem_of_mem hq
  obtain ⟨j, hj, rfl⟩ := List.getElem_of_mem hr
  have hpair := List.pairwise_iff_getElem.mp h
  rcases Nat.lt_trichotomy i j with hij | rfl | hij
  · have := hpair i j hi hj hij
    omega
  · rfl
  · have := hpair j i hj hi hij
    omega

theorem prevOffset_lastPut (blake3 : Bytes → Bytes32) (h : Ascending rs) (hput : lastPut rs key = some r)
    (hzero : r.prevOffset = 0) (hsmall : oldOffset index key < 2 ^ 64) :
    (patched index (latest blake3 rs).toList r).prevOffset = oldOffset index key := by
  refine prevOffset_patched ?_ ?_ hzero hsmall
  · refine ⟨(key, blake3 r.value, r.offset), ?_, rfl⟩
    rw [Std.ExtTreeMap.mem_toList_iff_getElem?_eq_some, getElem?_latest h, hput]
    rfl
  · intro p hp hoff
    obtain ⟨q, hq, hpq⟩ := mem_latest h hp
    obtain ⟨hqin, -, hqkey⟩ := lastPut_mem hq
    obtain ⟨hrin, -, hrkey⟩ := lastPut_mem hput
    have hsame : q.offset = r.offset := by
      rw [← hoff, hpq]
    rw [← hqkey, ascending_inj h hqin hrin hsame, hrkey]

theorem lastPut_map {f : Record → Record} (hkeys : ∀ r, (f r).key = r.key)
    (hdeleted : ∀ r, (f r).deleted = r.deleted) (rs : List Record) (key : Bytes32) :
    lastPut (rs.map f) key = (lastPut rs key).map f := by
  unfold lastPut
  have hfilter : (rs.map f).filter (fun r => !r.deleted) = (rs.filter fun r => !r.deleted).map f := by
    rw [List.filter_map]
    congr 2
    funext r
    simp [hdeleted]
  rw [hfilter, lastOf_map]
  simp only [hkeys]

theorem lastTombstone_map {f : Record → Record} (hkeys : ∀ r, (f r).key = r.key)
    (hdeleted : ∀ r, (f r).deleted = r.deleted) (rs : List Record) (key : Bytes32) :
    lastTombstone (rs.map f) key = (lastTombstone rs key).map f := by
  unfold lastTombstone tombstones
  have hfilter : (rs.map f).filter Record.deleted = (rs.filter Record.deleted).map f := by
    rw [List.filter_map]
    congr 2
    funext r
    exact hdeleted r
  rw [hfilter, lastOf_map]
  simp only [hkeys]

/-- **A fold puts a new version in front of the chain.** -/
theorem linked_fold {base : ℕ} {index' : ShardIndex} {gen : ℕ}
    (h : Linked key base parts.reverse (oldOffset index key)) (hasc : Ascending pend)
    (hzero : ∀ r ∈ pend, r.prevOffset = 0) (hsmall : oldOffset index key < 2 ^ 64)
    (hindex : index'[key]? = entryAfter blake3 index gen pend key) :
    Linked key base (parts ++ [foldedRecords blake3 index pend]).reverse (oldOffset index' key) := by
  rw [List.reverse_append, List.reverse_singleton, List.singleton_append, Linked]
  unfold foldedRecords
  rw [lastPut_map (by simp) (by simp), lastTombstone_map (by simp) (by simp)]
  unfold oldOffset
  rw [hindex, entryAfter]
  cases hput : lastPut pend key with
  | some r =>
    have hprev := prevOffset_lastPut blake3 hasc hput (hzero r (lastPut_mem hput).1) hsmall
    refine ⟨(patched_offset _ _ _).symm, ?_⟩
    rw [hprev]
    exact h
  | none =>
    cases htomb : lastTombstone pend key with
    | some t => exact (patched_offset _ _ _).symm
    | none => exact h

/-! ## Heights -/

/-- The height of the last of the blocks, `height` if there is none. -/
def lastHeight (height : ℕ) (blocks : List Block) : ℕ := (blocks.getLast?.map Block.height).getD height

theorem lastHeight_append (height : ℕ) (blocks blocks' : List Block) :
    lastHeight height (blocks ++ blocks') = lastHeight (lastHeight height blocks) blocks' := by
  unfold lastHeight
  rw [List.getLast?_append]
  cases blocks'.getLast? <;> rfl

/-- The records of every block are those of its writes and carry the height of the block before it. -/
def Stamped : ℕ → List (List Record) → List Block → Prop
  | _, [], [] => True
  | height, rs :: parts, b :: blocks => rs.map toWrite = b.writes ∧ (∀ r ∈ rs, r.height = height % 2 ^ 64) ∧
      Stamped b.height parts blocks
  | _, _, _ => False

theorem stamped_append {height : ℕ} {blocks : List Block} {b : Block} (h : Stamped height parts blocks)
    (hwrites : rs.map toWrite = b.writes)
    (hheight : ∀ r ∈ rs, r.height = lastHeight height blocks % 2 ^ 64) :
    Stamped height (parts ++ [rs]) (blocks ++ [b]) := by
  induction parts generalizing height blocks with
  | nil =>
    cases blocks with
    | nil => exact ⟨hwrites, hheight, trivial⟩
    | cons => cases h
  | cons rs' parts ih =>
    cases blocks with
    | nil => cases h
    | cons b' blocks =>
      refine ⟨h.1, h.2.1, ih h.2.2 ?_⟩
      have hlast : lastHeight height (b' :: blocks) = lastHeight b'.height blocks := by
        rw [← List.singleton_append, lastHeight_append]
        rfl
      rw [hlast] at hheight
      exact hheight

/-! ## The invariant -/

/-- **The index and the active log hold the versions of every key.** The blocks of the active segment are
`parts`; `base` is where the chain of a key goes on from there. -/
structure Chained (w : World) (segs parts : List (List Record)) (pend : List Record) (base : Bytes32 → ℕ) :
    Prop where
  tracks : Tracks w segs parts.flatten pend
  fresh : ∀ r ∈ pend, r.prevOffset = 0 ∧ r.height = w.db.currentHeight % 2 ^ 64
  current : w.db.currentHeight = lastHeight (lastHeight 0 w.journal.segments.flatten) w.journal.blocks
  stamped : Stamped (lastHeight 0 w.journal.segments.flatten) parts w.journal.blocks
  small : ∀ key, oldOffset w.db.dbe.index key < 2 ^ 64
  linked : ∀ key, Linked key (base key) parts.reverse (oldOffset w.db.dbe.index key)
  known : ∀ key, w.db.dbe.index[key]? = none ↔ ∀ r ∈ segs.flatten ++ parts.flatten, r.key ≠ key
  based : ∀ key, (∀ r ∈ segs.flatten, r.key ≠ key) → base key = 0
  gen : ∀ key e, w.db.dbe.index[key]? = some e →
    e.logId ≤ w.db.gen ∧ (e.logId = w.db.gen ↔ ∃ r ∈ parts.flatten, r.key = key)

variable {base : Bytes32 → ℕ}

theorem chained_start (blake3 : Bytes → Bytes32) (cfg : Config) (n : ℕ) :
    Chained (start blake3 cfg n) [] [] [] fun _ => 0 := by
  have htracks := tracks_start blake3 cfg n
  unfold start at htracks ⊢
  rw [open_new] at htracks ⊢
  refine ⟨htracks, by simp, rfl, trivial, fun _ => (show 0 < 2 ^ 64 by decide), fun _ =>
    rfl, by simp, fun _ _ => rfl, ?_⟩
  intro key e he
  cases he

theorem Chained.withCache (h : Chained w segs parts pend base) (c : ValueCache) :
    Chained { w with db := withCache w.db c } segs parts pend base :=
  ⟨h.tracks.withCache c, h.fresh, h.current, h.stamped, h.small, h.linked, h.known, h.based, h.gen⟩

theorem Chained.writes {x : Write} {c : ValueCache} (h : Chained w segs parts pend base)
    (hw : Writes w x c w') : ∃ pend', Chained w' segs parts pend' base := by
  cases hw with
  | failed => exact ⟨pend, h.withCache c⟩
  | @appended log r ext room isWrite height prev =>
    refine ⟨pend ++ [r], h.tracks.appended ext room isWrite c, ?_, h.current, h.stamped, h.small, h.linked,
      h.known, h.based, h.gen⟩
    intro q hq
    rcases List.mem_append.mp hq with hq | hq
    · exact h.fresh q hq
    · obtain rfl := List.mem_singleton.mp hq
      exact ⟨prev, height⟩

theorem entryAfter_touched (blake3 : Bytes → Bytes32) (index : ShardIndex) (logId : ℕ)
    (h : ∃ r ∈ rs, r.key = key) : ∃ e r, entryAfter blake3 index logId rs key = some e ∧ e.logId = logId ∧
      r ∈ rs ∧ e.offset = r.offset := by
  unfold entryAfter
  cases hput : lastPut rs key with
  | some r => exact ⟨_, r, rfl, rfl, (lastPut_mem hput).1, rfl⟩
  | none =>
    cases htomb : lastTombstone rs key with
    | some t => exact ⟨_, t, rfl, rfl, (List.mem_filter.mp (lastOf_mem htomb).1).1, rfl⟩
    | none =>
      obtain ⟨r, hr, hkey⟩ := h
      have hd := lastTombstone_eq_none.mp htomb r hr hkey
      have hnot := lastOf_eq_none.mp hput r (List.mem_filter.mpr ⟨hr, by simp [hd]⟩)
      exact absurd hkey hnot

theorem Chained.folded (blake3 : Bytes → Bytes32) (h : Chained w segs parts pend base) :
    (∀ key, oldOffset (w.folded blake3).index key < 2 ^ 64) ∧
    (∀ key, Linked key (base key) (parts ++ [foldedRecords blake3 w.db.dbe.index pend]).reverse
      (oldOffset (w.folded blake3).index key)) ∧
    (∀ key, (w.folded blake3).index[key]? = none ↔
      ∀ r ∈ segs.flatten ++ (parts ++ [foldedRecords blake3 w.db.dbe.index pend]).flatten, r.key ≠ key) ∧
    ∀ key e, (w.folded blake3).index[key]? = some e → e.logId ≤ w.db.gen ∧
      (e.logId = w.db.gen ↔
        ∃ r ∈ (parts ++ [foldedRecords blake3 w.db.dbe.index pend]).flatten, r.key = key) := by
  have hindex : ∀ key, (w.folded blake3).index[key]? = entryAfter blake3 w.db.dbe.index w.db.gen pend key :=
    index_commitFold blake3 _ _ _ h.tracks.holds.pend
  have hflatten : (parts ++ [foldedRecords blake3 w.db.dbe.index pend]).flatten =
      parts.flatten ++ foldedRecords blake3 w.db.dbe.index pend := by simp
  have hkeys : ∀ key, (∃ r ∈ foldedRecords blake3 w.db.dbe.index pend, r.key = key) ↔
      ∃ r ∈ pend, r.key = key := by
    intro key
    unfold foldedRecords
    simp
  have hcapacity := h.tracks.capacity
  have hroom := h.tracks.holds.room
  have hwidth := w.db.cfg.width
  -- a key of the block has a new entry, any other its old one
  have hcases : ∀ key, (∃ r ∈ pend, r.key = key ∧ ∃ e, (w.folded blake3).index[key]? = some e ∧
      e.logId = w.db.gen ∧ e.offset < 2 ^ 64) ∨
      ((∀ r ∈ pend, r.key ≠ key) ∧ (w.folded blake3).index[key]? = w.db.dbe.index[key]?) := by
    intro key
    rw [hindex]
    by_cases htouch : ∃ r ∈ pend, r.key = key
    · obtain ⟨e, r, he, hid, hr, hoff⟩ := entryAfter_touched blake3 w.db.dbe.index w.db.gen htouch
      obtain ⟨q, hq, hkey⟩ := htouch
      have hle := (h.tracks.holds.pend.decode hr).2.2
      exact .inl ⟨q, hq, hkey, e, he, hid, by omega⟩
    · push Not at htouch
      exact .inr ⟨htouch, entryAfter_of_none (lastOf_eq_none.mpr htouch)⟩
  refine ⟨?_, ?_, ?_, ?_⟩
  · intro key
    rcases hcases key with ⟨-, -, -, e, he, -, hoff⟩ | ⟨-, hsame⟩
    · rw [oldOffset, he]
      exact hoff
    · rw [oldOffset, hsame]
      exact h.small key
  · intro key
    exact linked_fold (h.linked key) (ascending_of_lays h.tracks.holds.pend) (fun r hr => (h.fresh r hr).1)
      (h.small key) (hindex key)
  · intro key
    rw [hflatten, ← List.append_assoc]
    rcases hcases key with ⟨q, hq, hkey, e, he, -⟩ | ⟨hnone, hsame⟩
    · obtain ⟨q', hq', hkey'⟩ := (hkeys key).mpr ⟨q, hq, hkey⟩
      rw [he]
      refine ⟨fun hnone => ?_, fun hall => absurd hkey' (hall q' (List.mem_append_right _ hq'))⟩
      cases hnone
    · rw [hsame, h.known]
      constructor
      · intro hall r hr
        rcases List.mem_append.mp hr with hr | hr
        · exact hall r hr
        · intro hkey
          obtain ⟨q, hq, hqkey⟩ := (hkeys key).mp ⟨r, hr, hkey⟩
          exact hnone q hq hqkey
      · exact fun hall r hr => hall r (List.mem_append_left _ hr)
  · intro key e he
    rw [hflatten]
    rcases hcases key with ⟨q, hq, hkey, e', he', hid, -⟩ | ⟨hnone, hsame⟩
    · rw [he] at he'
      obtain rfl := Option.some.inj he'
      obtain ⟨q', hq', hkey'⟩ := (hkeys key).mpr ⟨q, hq, hkey⟩
      exact ⟨hid.le, fun _ => ⟨q', List.mem_append_right _ hq', hkey'⟩, fun _ => hid⟩
    · rw [hsame] at he
      obtain ⟨hle, hiff⟩ := h.gen key e he
      refine ⟨hle, hiff.trans ⟨?_, ?_⟩⟩
      · rintro ⟨r, hr, hkey⟩
        exact ⟨r, List.mem_append_left _ hr, hkey⟩
      · rintro ⟨r, hr, hkey⟩
        rcases List.mem_append.mp hr with hr | hr
        · exact ⟨r, hr, hkey⟩
        · obtain ⟨q, hq, hqkey⟩ := (hkeys key).mp ⟨r, hr, hkey⟩
          exact absurd hqkey (hnone q hq)

theorem Chained.stamped_folded (blake3 : Bytes → Bytes32) (h : Chained w segs parts pend base) (height : ℕ) :
    Stamped (lastHeight 0 w.journal.segments.flatten) (parts ++ [foldedRecords blake3 w.db.dbe.index pend])
      (w.journal.blocks ++ [⟨height, w.journal.pending⟩]) := by
  refine stamped_append h.stamped ?_ ?_
  · rw [toWrite_foldedRecords, h.tracks.pending]
  · intro r hr
    obtain ⟨q, hq, rfl⟩ := List.mem_map.mp hr
    rw [patched_height, ← h.current]
    exact (h.fresh q hq).2

theorem lastHeight_concat (height : ℕ) (blocks : List Block) (b : Block) :
    lastHeight height (blocks ++ [b]) = b.height := by
  rw [lastHeight_append]
  rfl

theorem Chained.commit (blake3 : Bytes → Bytes32) (h : Chained w segs parts pend base)
    (hrot : w.rotates = false) (height : ℕ) (s : Schedule) :
    Chained (step blake3 w (.commit height s)) segs (parts ++ [foldedRecords blake3 w.db.dbe.index pend]) []
      base := by
  obtain ⟨hsmall, hlinked, hknown, hgen⟩ := h.folded blake3
  have htracks := h.tracks.commit blake3 hrot height s
  have hflatten : (parts ++ [foldedRecords blake3 w.db.dbe.index pend]).flatten =
      parts.flatten ++ foldedRecords blake3 w.db.dbe.index pend := by simp
  rw [← hflatten] at htracks
  rw [step_commit h.tracks hrot] at htracks ⊢
  refine ⟨htracks, by simp, ?_, h.stamped_folded blake3 height, hsmall, hlinked, hknown, h.based, hgen⟩
  exact (lastHeight_concat _ w.journal.blocks ⟨height, w.journal.pending⟩).symm

theorem Chained.commitRotate (blake3 : Bytes → Bytes32) (h : Chained w segs parts pend base)
    (hrot : w.rotates = true) (height : ℕ) (s : Schedule) :
    Chained (step blake3 w (.commit height s))
      (segs ++ [(parts ++ [foldedRecords blake3 w.db.dbe.index pend]).flatten]) [] []
      (oldOffset (w.folded blake3).index) := by
  obtain ⟨hsmall, hlinked, hknown, hgen⟩ := h.folded blake3
  have htracks := h.tracks.commitRotate blake3 hrot height s
  have hflatten : (parts ++ [foldedRecords blake3 w.db.dbe.index pend]).flatten =
      parts.flatten ++ foldedRecords blake3 w.db.dbe.index pend := by simp
  rw [← hflatten] at htracks
  have hsegs : (segs ++ [(parts ++ [foldedRecords blake3 w.db.dbe.index pend]).flatten]).flatten =
      segs.flatten ++ (parts ++ [foldedRecords blake3 w.db.dbe.index pend]).flatten := by simp
  obtain ⟨c, hc⟩ : ∃ c, step blake3 w (.commit height s) = _ := step_commit_rotate h.tracks hrot height s
  rw [hc] at htracks ⊢
  refine ⟨htracks, by simp, ?_, trivial, hsmall, fun _ => rfl, ?_, ?_, ?_⟩
  · have hjournal : (w.journal.commit height true).segments.flatten =
        w.journal.segments.flatten ++ (w.journal.blocks ++ [⟨height, w.journal.pending⟩]) := by
      simp [Journal.commit]
    change height = lastHeight (lastHeight 0 (w.journal.commit height true).segments.flatten) []
    rw [hjournal, ← List.append_assoc, lastHeight_concat]
    rfl
  · intro key
    rw [hsegs, List.flatten_nil, List.append_nil]
    exact hknown key
  · intro key hall
    rw [hsegs] at hall
    rw [oldOffset, (hknown key).mpr hall]
    rfl
  · intro key e he
    obtain ⟨hle, -⟩ := hgen key e he
    refine ⟨Nat.le_succ_of_le hle, fun heq => ?_, fun hin => ?_⟩
    · change e.logId = w.db.gen + 1 at heq
      omega
    · obtain ⟨r, hr, -⟩ := hin
      cases hr

/-- **A call keeps the versions.** -/
theorem Chained.step (blake3 : Bytes → Bytes32) {op : Op} (h : Chained w segs parts pend base)
    (hop : Plain w op) : ∃ segs' parts' pend' base', Chained (step blake3 w op) segs' parts' pend' base' := by
  cases op with
  | put key value =>
    obtain ⟨pend', h'⟩ := h.writes (writes_put w hop)
    exact ⟨_, _, _, _, h'⟩
  | delete key =>
    obtain ⟨pend', h'⟩ := h.writes (writes_delete w key)
    exact ⟨_, _, _, _, h'⟩
  | writerPut shardId key value =>
    rw [step_writerPut hop.1]
    obtain ⟨pend', h'⟩ := h.writes (writes_put w hop.2)
    exact ⟨_, _, _, _, h'⟩
  | get key =>
    obtain ⟨c, -, hc⟩ := snd_get w.db key
    rw [History.step, hc]
    exact ⟨_, _, _, _, h.withCache c⟩
  | commit height s =>
    cases hrot : w.rotates with
    | false => exact ⟨_, _, _, _, h.commit blake3 hrot height s⟩
    | true => exact ⟨_, _, _, _, h.commitRotate blake3 hrot height s⟩

theorem linked_touched {off base : ℕ} {older : List (List Record)} (h : Linked key base older off)
    (htouch : ∃ r ∈ older.flatten, r.key = key) : ∃ r ∈ older.flatten, r.key = key ∧ off = r.offset := by
  induction older with
  | nil =>
    obtain ⟨r, hr, -⟩ := htouch
    cases hr
  | cons rs older ih =>
    rw [Linked] at h
    rw [List.flatten_cons] at htouch ⊢
    cases hput : lastPut rs key with
    | some r =>
      rw [hput] at h
      obtain ⟨hr, -, hkey⟩ := lastPut_mem hput
      exact ⟨r, List.mem_append_left _ hr, hkey, h.1⟩
    | none =>
      cases htomb : lastTombstone rs key with
      | some t =>
        rw [hput, htomb] at h
        obtain ⟨ht, hkey⟩ := lastOf_mem htomb
        exact ⟨t, List.mem_append_left _ (List.mem_filter.mp ht).1, hkey, h⟩
      | none =>
        rw [hput, htomb] at h
        have hnone : ∀ r ∈ rs, r.key ≠ key := by
          intro r hr hkey
          have hd := lastTombstone_eq_none.mp htomb r hr hkey
          exact lastOf_eq_none.mp hput r (List.mem_filter.mpr ⟨hr, by simp [hd]⟩) hkey
        obtain ⟨r, hr, hkey⟩ := htouch
        rcases List.mem_append.mp hr with hr | hr
        · exact absurd hkey (hnone r hr)
        · obtain ⟨q, hq, hrest⟩ := ih h ⟨r, hr, hkey⟩
          exact ⟨q, List.mem_append_right _ hq, hrest⟩

theorem Chained.indexed {e : Entry} (h : Chained w segs parts pend base)
    (he : w.db.dbe.index[key]? = some e) (hgen : e.logId = w.db.gen) :
    ∃ r ∈ parts.flatten, r.key = key ∧ e.offset = r.offset := by
  have htouch := (h.gen key e he).2.mp hgen
  have hlinked := h.linked key
  have hoff : oldOffset w.db.dbe.index key = e.offset := by
    rw [oldOffset, he]
    rfl
  rw [hoff] at hlinked
  have hmem : ∀ r, r ∈ parts.reverse.flatten ↔ r ∈ parts.flatten := by
    intro r
    simp only [List.mem_flatten, List.mem_reverse]
  obtain ⟨r, hr, hkey⟩ := htouch
  obtain ⟨q, hq, hrest⟩ := linked_touched hlinked ⟨r, (hmem r).mpr hr, hkey⟩
  exact ⟨q, (hmem q).mp hq, hrest⟩

end TruthLinked.DonaDb.Versions
