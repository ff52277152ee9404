import TruthLinked.DonaDb.Block
import TruthLinked.DonaDb.Engine
import TruthLinked.Lib.Run

/-! # Histories of a database

Calls on a `DonaDbX` and the journal of what they committed, block by block and segment by segment: the
journal knows nothing of logs and indexes and serves as the specification. `Tracks` ties the two together
for histories that write to shard 0 only: the active log and the sealed segments hold the writes of the
journal in order. -/

namespace TruthLinked.DonaDb.History

open Core.Types Lib.SortKey Lib.Table DonaDb.Log DonaDb.Fold DonaDb.Cache DonaDb.Block DonaDb.Engine

/-! ## The journal -/

/-- A put, or a deletion (`none`). -/
structure Write where
  key : Bytes32
  value : Option Bytes
  deriving DecidableEq

/-- The writes of a block and the height it was committed at. -/
structure Block where
  height : ℕ
  writes : List Write
  deriving DecidableEq

/-- The committed blocks, those of each sealed segment apart, and the writes since the last commit. -/
structure Journal where
  segments : List (List Block)
  blocks : List Block
  pending : List Write
  deriving DecidableEq

/-- The writes of the given blocks, in order. -/
def writesOf (blocks : List Block) : List Write := blocks.flatMap Block.writes

/-- Everything committed so far. -/
def Journal.committed (j : Journal) : List Write := writesOf (j.segments.flatten ++ j.blocks)

/-- The value of a key after the given writes. -/
def liveValue (ws : List Write) (key : Bytes32) : Option Bytes := (lastOf Write.key key ws).bind Write.value

/-- The pending writes become a block; with a rotation the segment is closed. -/
def Journal.commit (j : Journal) (height : ℕ) (rotated : Bool) : Journal :=
  let blocks := j.blocks ++ [⟨height, j.pending⟩]
  if rotated then ⟨j.segments ++ [blocks], [], []⟩ else ⟨j.segments, blocks, []⟩

/-- The calls on a database. -/
inductive Op where
  | put (key : Bytes32) (value : Bytes)
  | delete (key : Bytes32)
  | writerPut (shardId : ℕ) (key : Bytes32) (value : Bytes)
  | get (key : Bytes32)
  | commit (height : ℕ) (schedule : Schedule)

/-- A database and its journal. -/
structure World where
  db : DonaDbX
  journal : Journal

/-- A write is noted if the call returned `Ok`. -/
def World.note (w : World) (res : Except DbError ℕ × DonaDbX) (x : Write) : World :=
  match res with
  | (.ok _, db) => { db, journal := { w.journal with pending := w.journal.pending ++ [x] } }
  | (.error _, db) => { w with db }

/-- Whether a commit now rotates the segment. -/
def World.rotates (w : World) : Bool := w.db.cfg.crosses w.db.dbe.active.writeOffset

/-- One call. -/
def step (blake3 : Bytes → Bytes32) (w : World) : Op → World
  | .put key value => w.note (w.db.put key value) ⟨key, some value⟩
  | .delete key => w.note (w.db.delete key) ⟨key, none⟩
  | .writerPut shardId key value => w.note (w.db.writerPut shardId key value) ⟨key, some value⟩
  | .get key => { w with db := (w.db.get key).2 }
  | .commit height schedule =>
    { db := w.db.commit blake3 height schedule, journal := w.journal.commit height w.rotates }

/-- A database opened on an empty directory, with `n` shards beside shard 0. -/
def start (blake3 : Bytes → Bytes32) (cfg : Config) (n : ℕ) : World :=
  { db := .open blake3 cfg (.empty n), journal := ⟨[], [], []⟩ }

theorem committed_commit (j : Journal) (height : ℕ) (rotated : Bool) :
    (j.commit height rotated).committed = j.committed ++ j.pending := by
  cases rotated <;> simp [Journal.commit, Journal.committed, writesOf]

/-! ## The logs hold the journal -/

/-- The write that a record stands for. -/
def toWrite (r : Record) : Write := ⟨r.key, if r.deleted then none else some r.value⟩

theorem toWrite_foldedRecords (blake3 : Bytes → Bytes32) (index : ShardIndex) (rs : List Record) :
    (foldedRecords blake3 index rs).map toWrite = rs.map toWrite := by
  unfold foldedRecords
  rw [List.map_map]
  refine List.map_congr_left fun r _ => ?_
  simp [toWrite]

theorem lastOf_toWrite (key : Bytes32) (rs : List Record) :
    lastOf Write.key key (rs.map toWrite) = (lastOf Record.key key rs).map toWrite :=
  lastOf_map Write.key key toWrite rs

/-- A sealed segment consists of the records `rs`. -/
def SegmentHolds (seg : SealedSegment) (rs : List Record) : Prop := Lays seg.mmap 8 rs seg.info.used

/-- The logs of the database hold the writes of the journal: the sealed segments hold `segs`, the active
log the folded records `done` and the pending ones `pend`, and the other shards nothing. -/
structure Tracks (w : World) (segs : List (List Record)) (done pend : List Record) : Prop where
  idle : Idle w.db.dbe
  holds : Holds w.db.dbe.active done pend
  capacity : w.db.dbe.active.capacity = w.db.cfg.bufferSize
  sealed : List.Forall₂ SegmentHolds w.db.segments segs
  segments : segs.map (List.map toWrite) = w.journal.segments.map writesOf
  blocks : done.map toWrite = writesOf w.journal.blocks
  pending : pend.map toWrite = w.journal.pending

theorem Tracks.committed {w : World} {segs : List (List Record)} {done pend : List Record}
    (h : Tracks w segs done pend) : w.journal.committed = (segs.flatten ++ done).map toWrite := by
  unfold Journal.committed writesOf
  rw [List.flatMap_append, List.map_append, h.blocks, List.map_flatten, h.segments, List.flatMap_def,
    List.map_flatten, List.flatten_flatten, List.map_map]
  rfl

/-- Nothing is written to a shard other than shard 0, and no value is too long for its length field. -/
def Plain (w : World) : Op → Prop
  | .put _ value => value.length < 2 ^ 32
  | .writerPut shardId _ value => shardId % (w.db.dbe.rest.length + 1) = 0 ∧ value.length < 2 ^ 32
  | _ => True

theorem tracks_start (blake3 : Bytes → Bytes32) (cfg : Config) (n : ℕ) :
    Tracks (start blake3 cfg n) [] [] [] := by
  unfold start
  rw [open_new]
  refine ⟨?_, ⟨rfl, rfl, cfg.header⟩, rfl, .nil, rfl, rfl, rfl⟩
  intro log hlog
  obtain rfl := List.eq_of_mem_replicate hlog
  exact le_rfl

/-! ## What a call does -/

/-- The database with another cache. -/
def withCache (db : DonaDbX) (c : ValueCache) : DonaDbX := { db with dbe := { db.dbe with vcache := c } }

/-- A call that writes `x` to the active log and leaves the cache `c`: it failed, or a record was
appended. -/
inductive Writes (w : World) (x : Write) (c : ValueCache) : World → Prop where
  | failed : Writes w x c { w with db := withCache w.db c }
  | appended {log : CommutativeLog} {r : Record} (ext : Extends w.db.dbe.active log [r])
      (room : log.writeOffset ≤ w.db.dbe.active.capacity) (isWrite : toWrite r = x)
      (height : r.height = w.db.currentHeight % 2 ^ 64) (prev : r.prevOffset = 0) :
      Writes w x c
        { db := { w.db with dbe := { w.db.dbe with active := log, vcache := c } }
          journal := { w.journal with pending := w.journal.pending ++ [x] } }

variable {blake3 : Bytes → Bytes32} {w w' : World} {segs : List (List Record)} {done pend : List Record}

theorem writes_put (w : World) {key : Bytes32} {value : Bytes} (hvalue : value.length < 2 ^ 32) :
    Writes w ⟨key, some value⟩ w.db.dbe.vcache (step blake3 w (.put key value)) := by
  cases hrun : w.db.dbe.active.putVersioned key value 0 w.db.currentHeight with
  | mk res log =>
    rw [step, DonaDbX.put, hrun]
    rcases append_cases hrun with ⟨rfl, rfl, -⟩ | ⟨rfl, hroom, rfl⟩
    · exact .failed
    · exact .appended (extends_append false hvalue (by simp)) hroom rfl rfl (Nat.zero_mod _)

theorem writes_delete (w : World) (key : Bytes32) :
    Writes w ⟨key, none⟩ (w.db.dbe.vcache.remove key) (step blake3 w (.delete key)) := by
  cases hrun : w.db.dbe.active.delVersioned key 0 w.db.currentHeight with
  | mk res log =>
    rw [step, DonaDbX.delete, hrun]
    rcases append_cases hrun with ⟨rfl, rfl, -⟩ | ⟨rfl, hroom, rfl⟩
    · exact .failed
    · exact .appended (extends_append true (by simp) fun _ => rfl) hroom rfl rfl (Nat.zero_mod _)

theorem step_writerPut {shardId : ℕ} (h : shardId % (w.db.dbe.rest.length + 1) = 0) (key : Bytes32)
    (value : Bytes) : step blake3 w (.writerPut shardId key value) = step blake3 w (.put key value) := by
  unfold step DonaDbX.writerPut
  dsimp only
  rw [h]
  rfl

theorem snd_get (db : DonaDbX) (key : Bytes32) :
    ∃ c, c.held = db.dbe.vcache.held ∧ (db.get key).2 = withCache db c := by
  have hsame : ∃ c, c.held = db.dbe.vcache.held ∧ db = withCache db c := ⟨db.dbe.vcache, rfl, rfl⟩
  rw [DonaDbX.get]
  cases db.dbe.index[key]? with
  | none => exact hsame
  | some e =>
    dsimp only
    split
    · exact hsame
    · have hheld := held_get db.dbe.vcache key
      cases hget : db.dbe.vcache.get key with
      | mk found c =>
        rw [hget] at hheld
        cases found with
        | some v => exact ⟨c, hheld, rfl⟩
        | none =>
          dsimp only
          split
          · cases readFromLog db.dbe.active e.offset <;> exact hsame
          · exact hsame

/-- The fold of the active log in a commit. -/
def World.folded (blake3 : Bytes → Bytes32) (w : World) : Folded := foldActive blake3 w.db.dbe w.db.gen

/-- The database after the fold of a commit, with the given cache. -/
def afterFold (blake3 : Bytes → Bytes32) (w : World) (height : ℕ) (c : ValueCache) : DonaDbX :=
  { w.db with
    dbe := { w.db.dbe with
      active := (w.folded blake3).log
      index := (w.folded blake3).index
      merkle := (w.folded blake3).acc
      vcache := c }
    currentHeight := height }

theorem Tracks.folded (blake3 : Bytes → Bytes32) (h : Tracks w segs done pend) :
    Holds (w.folded blake3).log (done ++ foldedRecords blake3 w.db.dbe.index pend) [] :=
  holds_commitFold blake3 _ _ _ h.holds

theorem records_folded (h : Tracks w segs done pend) :
    records (w.folded blake3).log.mmap w.db.dbe.active.committedOffset
      (min w.db.dbe.active.writeOffset w.db.dbe.active.capacity) =
        foldedRecords blake3 w.db.dbe.index pend := by
  rw [min_eq_left h.holds.room]
  exact records_of_lays (lays_commitFold blake3 _ _ _ h.holds.pend h.holds.done.le)

theorem foldRequest_commit (h : Tracks w segs done pend) (s : Schedule) :
    foldRequest blake3 (s.order (w.db.dbe.rest.length + 1)) (w.db.dbe.swap w.db.gen) w.db.dbe =
      ((afterFold blake3 w w.db.currentHeight w.db.dbe.vcache).dbe,
        foldedRecords blake3 w.db.dbe.index pend) := by
  have hperm := sortByKey_perm s.turn (List.range (w.db.dbe.rest.length + 1))
  have hzero : 0 ∈ s.order (w.db.dbe.rest.length + 1) := hperm.mem_iff.mpr (by simp)
  have hnodup : (s.order (w.db.dbe.rest.length + 1)).Nodup := hperm.nodup_iff.mpr List.nodup_range
  rw [foldRequest_idle h.idle hzero hnodup, ← records_folded h]
  rfl

/-- **A commit without rotation.** -/
theorem step_commit (h : Tracks w segs done pend) (hrot : w.rotates = false) (height : ℕ) (s : Schedule) :
    step blake3 w (.commit height s) =
      { db := afterFold blake3 w height
          ((foldedRecords blake3 w.db.dbe.index pend).foldl cacheRecord w.db.dbe.vcache)
        journal := w.journal.commit height false } := by
  have hcrosses : w.db.cfg.crosses w.db.dbe.active.writeOffset = false := hrot
  rw [step, DonaDbX.commit, foldRequest_commit h, hrot]
  dsimp only
  rw [hcrosses]
  rfl

/-- **A commit with rotation**: some of the records are cached before the cache is cleared, the others
after. -/
theorem step_commit_rotate (h : Tracks w segs done pend) (hrot : w.rotates = true) (height : ℕ)
    (s : Schedule) : ∃ c,
      step blake3 w (.commit height s) =
        { db := withCache ((afterFold blake3 w height c).rotate height w.db.dbe.active.writeOffset)
            (((foldedRecords blake3 w.db.dbe.index pend).drop s.cached).foldl cacheRecord w.db.dbe.vcache.clear)
          journal := w.journal.commit height true } := by
  have hcrosses : w.db.cfg.crosses w.db.dbe.active.writeOffset = true := hrot
  refine ⟨((foldedRecords blake3 w.db.dbe.index pend).take s.cached).foldl cacheRecord w.db.dbe.vcache, ?_⟩
  rw [step, DonaDbX.commit, foldRequest_commit h, hrot]
  dsimp only
  rw [hcrosses, ← clear_foldl_cacheRecord ((foldedRecords blake3 w.db.dbe.index pend).take s.cached)]
  rfl

/-! ## The logs go on holding the journal -/

theorem Tracks.withCache (h : Tracks w segs done pend) (c : ValueCache) :
    Tracks { w with db := withCache w.db c } segs done pend :=
  ⟨h.idle, h.holds, h.capacity, h.sealed, h.segments, h.blocks, h.pending⟩

theorem Tracks.appended (h : Tracks w segs done pend) {log : CommutativeLog} {r : Record} {x : Write}
    (ext : Extends w.db.dbe.active log [r]) (room : log.writeOffset ≤ w.db.dbe.active.capacity)
    (isWrite : toWrite r = x) (c : ValueCache) :
    Tracks { db := { w.db with dbe := { w.db.dbe with active := log, vcache := c } }
             journal := { w.journal with pending := w.journal.pending ++ [x] } } segs done (pend ++ [r]) := by
  refine ⟨h.idle, ⟨?_, ?_, ?_⟩, ?_, h.sealed, h.segments, h.blocks, ?_⟩
  · have hle := h.holds.pend.le
    rw [ext.committed]
    exact h.holds.done.congr (ext.below.mono (Nat.zero_le _) hle)
  · rw [ext.committed]
    exact (h.holds.pend.congr (ext.below.mono (Nat.zero_le _) le_rfl)).append ext.lays
  · rw [ext.capacity]
    exact room
  · exact ext.capacity.trans h.capacity
  · rw [List.map_append, h.pending, List.map_singleton, isWrite]

theorem Tracks.writes {x : Write} {c : ValueCache} (h : Tracks w segs done pend) (hw : Writes w x c w') :
    Tracks w' segs done pend ∨ ∃ r, toWrite r = x ∧ Tracks w' segs done (pend ++ [r]) := by
  cases hw with
  | failed => exact .inl (h.withCache c)
  | @appended log r ext room isWrite height prev => exact .inr ⟨r, isWrite, h.appended ext room isWrite c⟩

theorem Tracks.commit (blake3 : Bytes → Bytes32) (h : Tracks w segs done pend) (hrot : w.rotates = false)
    (height : ℕ) (s : Schedule) : Tracks (step blake3 w (.commit height s)) segs
      (done ++ foldedRecords blake3 w.db.dbe.index pend) [] := by
  have hfrontier := frontier_commitFold blake3 w.db.dbe.index w.db.dbe.merkle w.db.gen h.holds.pend
  rw [step_commit h hrot]
  refine ⟨h.idle, h.folded blake3, hfrontier.2.2.trans h.capacity, h.sealed, h.segments, ?_, rfl⟩
  rw [List.map_append, h.blocks, toWrite_foldedRecords, h.pending]
  simp [Journal.commit, writesOf]

theorem Tracks.commitRotate (blake3 : Bytes → Bytes32) (h : Tracks w segs done pend) (hrot : w.rotates = true)
    (height : ℕ) (s : Schedule) : Tracks (step blake3 w (.commit height s))
      (segs ++ [done ++ foldedRecords blake3 w.db.dbe.index pend]) [] [] := by
  obtain ⟨-, hcommitted, -⟩ :=
    frontier_commitFold blake3 w.db.dbe.index w.db.dbe.merkle w.db.gen h.holds.pend
  obtain ⟨c, hc⟩ : ∃ c, step blake3 w (.commit height s) = _ := step_commit_rotate h hrot height s
  have hlast : Lays (w.folded blake3).log.mmap 8 (done ++ foldedRecords blake3 w.db.dbe.index pend)
      w.db.dbe.active.writeOffset := by
    have := (h.folded blake3).done
    rwa [World.folded, foldActive, hcommitted] at this
  have hopen : CommutativeLog.open (fun _ => 0) w.db.cfg.bufferSize = freshLog w.db.cfg.bufferSize :=
    open_empty _
  rw [hc]
  refine ⟨h.idle, ?_, ?_, ?_, ?_, rfl, rfl⟩
  · change Holds (CommutativeLog.open (fun _ => 0) w.db.cfg.bufferSize) [] []
    rw [hopen]
    exact ⟨rfl, rfl, w.db.cfg.header⟩
  · change (CommutativeLog.open (fun _ => 0) w.db.cfg.bufferSize).capacity = w.db.cfg.bufferSize
    rw [hopen]
    rfl
  · exact List.rel_append h.sealed (.cons hlast .nil)
  · rw [List.map_append, h.segments, List.map_singleton, List.map_append, h.blocks, toWrite_foldedRecords,
      h.pending]
    simp [Journal.commit, writesOf]

end TruthLinked.DonaDb.History
