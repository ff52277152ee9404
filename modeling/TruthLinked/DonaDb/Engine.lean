import TruthLinked.DonaDb.Cache
import TruthLinked.DonaDb.Fold

/-! # The engine

`DualBufferEngine` of `dual_buffer.rs`, the segments of `segment.rs` and `DonaDbX` of `engine.rs`: writes
to the shard logs, the fold of a block, rotation of the active segment, the reads `get` and `get_at`, and
recovery. A mapped file and the log or segment that maps it share their bytes. -/

namespace TruthLinked.DonaDb.Engine

open Core.Types Lib.SortKey DonaDb.Log DonaDb.Fold DonaDb.Cache

/-! ## The fold engine -/

/-- `FoldReq`: the frontiers of the shards and the accumulator, both as of `swap`. -/
structure FoldReq where
  ends : List ℕ
  logId : ℕ
  acc : Bytes32
  deriving DecidableEq

/-- `DualBufferEngine`. Shard 0 is the log that `active`, `committed` and the engine's `segment_log`
name; the other shards follow. -/
structure DualBufferEngine where
  active : CommutativeLog
  rest : List CommutativeLog
  index : ShardIndex
  merkle : Bytes32
  vcache : ValueCache

/-- The log of a shard. -/
def DualBufferEngine.log (e : DualBufferEngine) : ℕ → Option CommutativeLog
  | 0 => some e.active
  | i + 1 => e.rest[i]?

/-- Another log for a shard. -/
def DualBufferEngine.setLog (e : DualBufferEngine) (log : CommutativeLog) : ℕ → DualBufferEngine
  | 0 => { e with active := log }
  | i + 1 => { e with rest := e.rest.set i log }

/-- `DualBufferEngine::swap`: what is sent to the fold thread. -/
def DualBufferEngine.swap (e : DualBufferEngine) (logId : ℕ) : FoldReq :=
  { ends := (e.active :: e.rest).map CommutativeLog.writeOffset, logId, acc := e.merkle }

/-- One shard of a request: its partial accumulator, and the records that go to the cache. -/
def foldShard (blake3 : Bytes → Bytes32) (req : FoldReq) (e : DualBufferEngine) (i : ℕ) :
    DualBufferEngine × Bytes32 × List Record :=
  match e.log i, req.ends[i]? with
  | some log, some endOff =>
    let folded := commitFoldUntil blake3 log e.index req.acc endOff req.logId
    ({ e.setLog folded.log i with index := folded.index }, folded.acc,
      records folded.log.mmap log.committedOffset (min endOff log.capacity))
  | _, _ => (e, req.acc, [])

/-- The shards of a request, in the order in which the workers come to them. -/
def foldShards (blake3 : Bytes → Bytes32) (req : FoldReq) :
    List ℕ → DualBufferEngine → DualBufferEngine × (ℕ → Bytes32) × List Record
  | [], e => (e, fun _ => req.acc, [])
  | i :: order, e =>
    let (e, acc, rs) := foldShard blake3 req e i
    let (e, accs, rs') := foldShards blake3 req order e
    (e, Function.update accs i acc, rs ++ rs')

/-- The fold thread's work on a request, up to the cache: `final_acc` is the first partial accumulator. -/
def foldRequest (blake3 : Bytes → Bytes32) (order : List ℕ) (req : FoldReq) (e : DualBufferEngine) :
    DualBufferEngine × List Record :=
  let (e, accs, rs) := foldShards blake3 req order e
  ({ e with merkle := accs 0 }, rs)

/-- What the fold thread does to the cache for a record: values above 8 KiB are passed over. -/
def cacheRecord (c : ValueCache) (r : Record) : ValueCache :=
  if r.deleted then c.remove r.key
  else if r.value.length ≤ 8192 then c.insert r.key r.value
  else c

theorem clear_foldl_cacheRecord (rs : List Record) (c : ValueCache) :
    (rs.foldl cacheRecord c).clear = c.clear := by
  have hrecord (c : ValueCache) (r : Record) : (cacheRecord c r).maxEntries = c.maxEntries := by
    unfold cacheRecord
    split_ifs
    · exact maxEntries_remove c r.key
    · exact maxEntries_insert c r.key r.value
    · rfl
  refine clear_congr ?_
  induction rs generalizing c with
  | nil => rfl
  | cons r rs ih => exact (ih _).trans (hrecord c r)

/-! ### The logs of the shards -/

section
variable {blake3 : Bytes → Bytes32} {e : DualBufferEngine} {req : FoldReq}

theorem log_setLog_self {i : ℕ} {log : CommutativeLog} (h : e.log i = some log) (log' : CommutativeLog) :
    (e.setLog log' i).log i = some log' := by
  cases i with
  | zero => rfl
  | succ i =>
    obtain ⟨hi, -⟩ := List.getElem?_eq_some_iff.mp h
    exact List.getElem?_set_self hi

theorem log_setLog_ne {i j : ℕ} (h : i ≠ j) (e : DualBufferEngine) (log : CommutativeLog) :
    (e.setLog log i).log j = e.log j := by
  cases i with
  | zero =>
    cases j with
    | zero => exact absurd rfl h
    | succ j => rfl
  | succ i =>
    cases j with
    | zero => rfl
    | succ j => exact List.getElem?_set_ne (by omega)

theorem setLog_comm {i j : ℕ} (h : i ≠ j) (e : DualBufferEngine) (log log' : CommutativeLog) :
    (e.setLog log i).setLog log' j = (e.setLog log' j).setLog log i := by
  cases i with
  | zero =>
    cases j with
    | zero => exact absurd rfl h
    | succ j => rfl
  | succ i =>
    cases j with
    | zero => rfl
    | succ j =>
      unfold DualBufferEngine.setLog
      dsimp only
      rw [List.set_comm _ _ (by omega)]

theorem setLog_setLog (e : DualBufferEngine) (i : ℕ) (log log' : CommutativeLog) :
    (e.setLog log i).setLog log' i = e.setLog log' i := by
  cases i with
  | zero => rfl
  | succ i =>
    unfold DualBufferEngine.setLog
    dsimp only
    rw [List.set_set]

/-- The engine with another index. -/
def withIndex (e : DualBufferEngine) (index : ShardIndex) : DualBufferEngine := { e with index }

theorem log_withIndex (e : DualBufferEngine) (index : ShardIndex) (i : ℕ) :
    (withIndex e index).log i = e.log i := by
  cases i <;> rfl

theorem setLog_withIndex (e : DualBufferEngine) (index : ShardIndex) (log : CommutativeLog) (i : ℕ) :
    (withIndex e index).setLog log i = withIndex (e.setLog log i) index := by
  cases i <;> rfl

/-- The write frontier of a shard. -/
def frontier (e : DualBufferEngine) (i : ℕ) : Option ℕ := (e.log i).map CommutativeLog.writeOffset

theorem foldShard_eq {j endOff : ℕ} {log : CommutativeLog} (hlog : e.log j = some log)
    (hend : req.ends[j]? = some endOff) :
    foldShard blake3 req e j =
      (withIndex (e.setLog (commitFoldUntil blake3 log e.index req.acc endOff req.logId).log j)
          (commitFoldUntil blake3 log e.index req.acc endOff req.logId).index,
        (commitFoldUntil blake3 log e.index req.acc endOff req.logId).acc,
        records (commitFoldUntil blake3 log e.index req.acc endOff req.logId).log.mmap log.committedOffset
          (min endOff log.capacity)) := by
  unfold foldShard
  rw [hlog, hend]
  rfl

theorem foldShard_skip {j : ℕ} (h : e.log j = none ∨ req.ends[j]? = none) :
    foldShard blake3 req e j = (e, req.acc, []) := by
  unfold foldShard
  rcases h with h | h
  · rw [h]
  · rw [h]
    cases e.log j <;> rfl

theorem frontier_foldShard (i j : ℕ) : frontier (foldShard blake3 req e j).1 i = frontier e i := by
  cases hlog : e.log j with
  | none => rw [foldShard_skip (.inl hlog)]
  | some log =>
    cases hend : req.ends[j]? with
    | none => rw [foldShard_skip (.inr hend)]
    | some endOff =>
      rw [foldShard_eq hlog hend]
      unfold frontier
      rw [log_withIndex]
      by_cases hij : i = j
      · subst hij
        rw [log_setLog_self hlog, hlog, Option.map_some, Option.map_some,
          (commitFoldUntil_frontier blake3 log e.index req.acc endOff req.logId).1]
      · rw [log_setLog_ne (Ne.symm hij)]

theorem index_setLog (e : DualBufferEngine) (log : CommutativeLog) (i : ℕ) :
    (e.setLog log i).index = e.index := by
  cases i <;> rfl

end

/-! ### Folding when only shard 0 has records -/

/-- The fold of shard 0 alone. -/
def foldActive (blake3 : Bytes → Bytes32) (e : DualBufferEngine) (logId : ℕ) : Folded :=
  commitFoldUntil blake3 e.active e.index e.merkle e.active.writeOffset logId

/-- No shard but shard 0 has records that are not folded. -/
def Idle (e : DualBufferEngine) : Prop := ∀ log ∈ e.rest, log.writeOffset ≤ log.committedOffset

variable {blake3 : Bytes → Bytes32} {e : DualBufferEngine} {logId : ℕ}

theorem records_empty (m : ℕ → UInt8) {a b : ℕ} (h : b ≤ a) : records m a b = [] := by
  unfold records
  rw [Nat.sub_eq_zero_of_le h]
  rfl

/-- The request ends at the frontiers of the shards from 1 on. -/
def EndsAt (req : FoldReq) (e : DualBufferEngine) : Prop :=
  ∀ i, req.ends[i + 1]? = (e.rest[i]?).map CommutativeLog.writeOffset

theorem endsAt_swap (e : DualBufferEngine) (logId : ℕ) : EndsAt (e.swap logId) e := by
  intro i
  rw [DualBufferEngine.swap, List.map_cons, List.getElem?_cons_succ, List.getElem?_map]

theorem foldShard_idle (h : Idle e) {req : FoldReq} (hends : EndsAt req e) (i : ℕ) :
    foldShard blake3 req e (i + 1) = (e, req.acc, []) := by
  unfold foldShard
  rw [hends, DualBufferEngine.log]
  cases hlog : e.rest[i]? with
  | none => rfl
  | some log =>
    have hle := h log (List.mem_of_getElem? hlog)
    have hset : e.rest.set i log = e.rest := by
      obtain ⟨hi, rfl⟩ := List.getElem?_eq_some_iff.mp hlog
      exact List.set_getElem_self hi
    have hrecords : records log.mmap log.committedOffset (min log.writeOffset log.capacity) = [] :=
      records_empty _ (by omega)
    simp only [Option.map_some, commitFoldUntil, if_pos hle, DualBufferEngine.setLog, hset, hrecords]

theorem foldShards_idle (blake3 : Bytes → Bytes32) (h : Idle e) {req : FoldReq} (hends : EndsAt req e)
    {order : List ℕ} (h0 : 0 ∉ order) : foldShards blake3 req order e = (e, fun _ => req.acc, []) := by
  induction order with
  | nil => rfl
  | cons i order ih =>
    rw [List.mem_cons, not_or] at h0
    obtain ⟨j, rfl⟩ := Nat.exists_eq_succ_of_ne_zero (Ne.symm h0.1)
    rw [foldShards, foldShard_idle h hends j]
    dsimp only
    rw [ih h0.2]
    dsimp only
    rw [Function.update_eq_self, List.append_nil]

/-- **With idle shards beside it, shard 0 decides**, in whatever order the shards are folded. -/
theorem foldRequest_idle (h : Idle e) {order : List ℕ} (h0 : 0 ∈ order) (hnodup : order.Nodup) :
    foldRequest blake3 order (e.swap logId) e =
      ({ e with
          active := (foldActive blake3 e logId).log
          index := (foldActive blake3 e logId).index
          merkle := (foldActive blake3 e logId).acc },
        records (foldActive blake3 e logId).log.mmap e.active.committedOffset
          (min e.active.writeOffset e.active.capacity)) := by
  unfold foldRequest
  suffices hshards : foldShards blake3 (e.swap logId) order e =
      ({ e with
          active := (foldActive blake3 e logId).log
          index := (foldActive blake3 e logId).index },
        Function.update (fun _ => e.merkle) 0 (foldActive blake3 e logId).acc,
        records (foldActive blake3 e logId).log.mmap e.active.committedOffset
          (min e.active.writeOffset e.active.capacity)) by
    rw [hshards]
    dsimp only
    rw [Function.update_self]
  induction order with
  | nil => cases h0
  | cons i order ih =>
    obtain ⟨hi, horder⟩ := List.nodup_cons.mp hnodup
    rw [foldShards]
    cases i with
    | zero =>
      have hzero : foldShard blake3 (e.swap logId) e 0 = ({ e with
          active := (foldActive blake3 e logId).log
          index := (foldActive blake3 e logId).index }, (foldActive blake3 e logId).acc,
          records (foldActive blake3 e logId).log.mmap e.active.committedOffset
            (min e.active.writeOffset e.active.capacity)) := rfl
      have hrest := foldShards_idle blake3 (e := { e with
          active := (foldActive blake3 e logId).log
          index := (foldActive blake3 e logId).index }) h (endsAt_swap e logId) hi
      rw [hzero]
      dsimp only
      rw [hrest]
      dsimp only
      rw [List.append_nil]
      rfl
    | succ j =>
      have h0' : 0 ∈ order := by
        rcases List.mem_cons.mp h0 with h | h
        · cases h
        · exact h
      rw [foldShard_idle h (endsAt_swap e logId) j]
      dsimp only
      rw [ih h0' horder]
      dsimp only
      rw [List.nil_append, Function.update_comm (by omega)]
      exact congrArg (fun f => (_, Function.update f 0 _, _)) (Function.update_eq_self (j + 1) fun _ => e.merkle)

/-! ## Segments -/

/-- `SegmentMeta`. -/
structure SegmentMeta where
  id : ℕ
  isSealed : Bool
  used : ℕ
  minHeight : ℕ
  maxHeight : ℕ
  deriving DecidableEq

/-- `Manifest`. Its ids, a `u32` in the source, do not wrap here. -/
structure Manifest where
  segments : List SegmentMeta
  nextId : ℕ
  deriving DecidableEq

/-- `SealedSegment`. -/
structure SealedSegment where
  info : SegmentMeta
  mmap : ℕ → UInt8

/-- `SealedSegment::get_at`: the last put of the key in front of the first record that is not a put. -/
def SealedSegment.getAt (seg : SealedSegment) (key : Bytes32) (height : ℕ) : Option Bytes :=
  if height < seg.info.minHeight ∨ seg.info.maxHeight < height then none
  else ((records seg.mmap 8 seg.info.used).takeWhile fun r => !r.deleted).foldl
    (fun best r => if r.key = key then some r.value else best) none

/-! ## The database -/

/-- `Config`: the size is a `u64`, and a file without room for the first eight bytes is refused when it
is mapped; `crosses` is the comparison of the filled part with `rotate_threshold`. -/
structure Config where
  bufferSize : ℕ
  crosses : ℕ → Bool
  header : 8 ≤ bufferSize
  width : bufferSize < 2 ^ 64

/-- `DonaDbX`. -/
structure DonaDbX where
  dbe : DualBufferEngine
  gen : ℕ
  segments : List SealedSegment
  manifest : Manifest
  cfg : Config
  currentHeight : ℕ

/-- `DonaDbX::put`. -/
def DonaDbX.put (db : DonaDbX) (key : Bytes32) (value : Bytes) : Except DbError ℕ × DonaDbX :=
  let (res, log) := db.dbe.active.putVersioned key value 0 db.currentHeight
  (res, { db with dbe := { db.dbe with active := log } })

/-- `DonaDbX::delete`. -/
def DonaDbX.delete (db : DonaDbX) (key : Bytes32) : Except DbError ℕ × DonaDbX :=
  let (res, log) := db.dbe.active.delVersioned key 0 db.currentHeight
  (res, { db with dbe := { db.dbe with active := log, vcache := db.dbe.vcache.remove key } })

/-- `DonaDbX::writer` and `BlockWriter::put`, for a writer of the current block. -/
def DonaDbX.writerPut (db : DonaDbX) (shardId : ℕ) (key : Bytes32) (value : Bytes) :
    Except DbError ℕ × DonaDbX :=
  let i := shardId % (db.dbe.rest.length + 1)
  match db.dbe.log i with
  | none => (.error .corrupt, db) -- not reached: `i` is the number of a shard
  | some log =>
    let (res, log) := log.putVersioned key value 0 db.currentHeight
    (res, { db with dbe := db.dbe.setLog log i })

/-- The lowest height of the active segment. -/
def DonaDbX.activeMin (db : DonaDbX) : ℕ :=
  ((db.manifest.segments.find? fun m => !m.isSealed).map SegmentMeta.minHeight).getD 0

/-- `DonaDbX::rotate`: the new active file is empty. -/
def DonaDbX.rotate (db : DonaDbX) (height actual : ℕ) : DonaDbX :=
  let nextId := db.manifest.nextId
  let info : SegmentMeta :=
    { id := nextId, isSealed := true, used := actual, minHeight := db.activeMin, maxHeight := height }
  let active : SegmentMeta :=
    { id := nextId + 1, isSealed := false, used := 0, minHeight := height + 1, maxHeight := 2 ^ 64 - 1 }
  { db with
    manifest :=
      { segments := db.manifest.segments.filter SegmentMeta.isSealed ++ [info] ++ [active]
        nextId := nextId + 1 + 1 }
    gen := db.gen + 1
    dbe :=
      { db.dbe with active := .open (fun _ => 0) db.cfg.bufferSize, vcache := db.dbe.vcache.clear }
    segments := db.segments ++ [{ info, mmap := db.dbe.active.mmap }] }

/-- How the threads happen to run in a commit: the turns of the shards, a shard being folded in one go, and
how many records the fold has cached when a rotation clears the cache. -/
structure Schedule where
  turn : ℕ → ℕ
  cached : ℕ

/-- The order in which the `n` shards are folded. -/
def Schedule.order (s : Schedule) (n : ℕ) : List ℕ := sortByKey s.turn (List.range n)

/-- `DonaDbX::commit` and the wait for its fold. -/
def DonaDbX.commit (blake3 : Bytes → Bytes32) (db : DonaDbX) (height : ℕ) (s : Schedule) : DonaDbX :=
  let sealedUsed := db.dbe.active.writeOffset
  let (dbe, rs) := foldRequest blake3 (s.order (db.dbe.rest.length + 1)) (db.dbe.swap db.gen) db.dbe
  let db := { db with dbe, currentHeight := height }
  let cache (rs : List Record) (db : DonaDbX) : DonaDbX :=
    { db with dbe := { db.dbe with vcache := rs.foldl cacheRecord db.dbe.vcache } }
  if db.cfg.crosses sealedUsed then
    cache (rs.drop s.cached) ((cache (rs.take s.cached) db).rotate height sealedUsed)
  else cache rs db

/-- `DonaDbX::state_root`. -/
def DonaDbX.stateRoot (blake3 : Bytes → Bytes32) (db : DonaDbX) : Bytes32 :=
  blake3 (ofBytes32 db.dbe.merkle)

/-! ## Reads -/

/-- `DonaDbX::read_from_log`. -/
def readFromLog (log : CommutativeLog) (off : ℕ) : Except DbError Bytes :=
  match decode log.mmap off with
  | some r => if r.deleted = false ∧ off + r.total ≤ log.capacity then .ok r.value else .error .corrupt
  | none => .error .corrupt

/-- A value, or `NotFound`. -/
def orNotFound : Option Bytes → Except DbError Bytes
  | some v => .ok v
  | none => .error .notFound

/-- The last two steps of `get`: the records since the last fold, then the sealed segments from the
newest on. -/
def DonaDbX.getUnindexed (db : DonaDbX) (key : Bytes32) : Except DbError Bytes :=
  match db.dbe.active.scanUnflushed key with
  | some v => .ok v
  | none => orNotFound (db.segments.reverse.findSome? fun seg => seg.getAt key seg.info.maxHeight)

/-- `DonaDbX::get`; a hit in the cache marks the slot. -/
def DonaDbX.get (db : DonaDbX) (key : Bytes32) : Except DbError Bytes × DonaDbX :=
  match db.dbe.index[key]? with
  | none => (db.getUnindexed key, db)
  | some e =>
    if e.deleted then (.error .notFound, db)
    else
      match db.dbe.vcache.get key with
      | (some v, vcache) => (.ok v, { db with dbe := { db.dbe with vcache } })
      | (none, _) =>
        if e.logId = db.gen then
          match readFromLog db.dbe.active e.offset with
          | .ok v => (.ok v, db)
          | .error _ => (db.getUnindexed key, db)
        else (db.getUnindexed key, db)

/-- The loop of `DonaDbX::chain_walk`; without fuel left it has not returned. -/
def chainWalk (log : CommutativeLog) (target : ℕ) : ℕ → ℕ → Option (Except DbError Bytes)
  | 0, _ => none
  | fuel + 1, off =>
    match decode log.mmap off with
    | none => some (.error .corrupt)
    | some r =>
      if r.deleted = true ∨ log.capacity < off + (chdr + 32) then some (.error .corrupt)
      else if r.height ≤ target then
        if off + r.total ≤ log.capacity then some (.ok r.value) else some (.error .corrupt)
      else if r.prevOffset = 0 then some (.error .notFound)
      else chainWalk log target fuel r.prevOffset

/-- The sealed segments in `get_at`. -/
def DonaDbX.getAtSealed (db : DonaDbX) (key : Bytes32) (height : ℕ) : Except DbError Bytes :=
  orNotFound (db.segments.reverse.findSome? fun seg =>
    if height < seg.info.minHeight then none else seg.getAt key height)

/-- `DonaDbX::get_at`. -/
def DonaDbX.getAt (db : DonaDbX) (fuel : ℕ) (key : Bytes32) (height : ℕ) :
    Option (Except DbError Bytes) :=
  match db.dbe.index[key]? with
  | none => some (db.getAtSealed key height)
  | some e =>
    if db.activeMin ≤ height ∧ e.logId = db.gen then
      match chainWalk db.dbe.active height fuel e.offset with
      | none => none
      | some (.ok v) => some (.ok v)
      | some (.error _) => some (db.getAtSealed key height)
    else some (db.getAtSealed key height)

/-! ## Recovery -/

/-- The files of a database directory. -/
structure Disk where
  manifest : Manifest
  active : ℕ → UInt8
  shards : List (ℕ → UInt8)
  segment : ℕ → ℕ → UInt8

/-- A directory without files; a new log file is filled with zeros. -/
def Disk.empty (shards : ℕ) : Disk :=
  { manifest := ⟨[], 0⟩, active := fun _ => 0, shards := List.replicate shards fun _ => 0,
    segment := fun _ _ => 0 }

/-- What the database leaves behind. -/
def DonaDbX.close (db : DonaDbX) : Disk :=
  { manifest := db.manifest
    active := db.dbe.active.mmap
    shards := db.dbe.rest.map CommutativeLog.mmap
    segment := fun id => ((db.segments.find? fun seg => seg.info.id = id).map SealedSegment.mmap).getD
      fun _ => 0 }

/-- The body of the loop of `replay_into`. -/
def replayRecord (blake3 : Bytes → Bytes32) (logId : ℕ) (s : ShardIndex × Bytes32) (r : Record) :
    ShardIndex × Bytes32 :=
  if r.deleted then
    (upsert s.1 r.key r.offset (count s.1 r.key + 1) logId true 0, xorOut s.1 r.key s.2)
  else
    (upsert s.1 r.key r.offset (count s.1 r.key + 1) logId false (blake3 r.value),
      xorOut s.1 r.key s.2 ^^^ (r.key ^^^ blake3 r.value))

/-- `DonaDbX::replay_into` on an empty index: the log, the index and the accumulator. -/
def replayInto (blake3 : Bytes → Bytes32) (log : CommutativeLog) (logId : ℕ) :
    CommutativeLog × ShardIndex × Bytes32 :=
  if log.committedOffset ≤ 8 then (log, ∅, 0)
  else
    let rs := records log.mmap 8 log.committedOffset
    (log.setCommitted (rs.foldl (fun cur r => cur + r.total) 8),
      rs.foldl (replayRecord blake3 logId) (∅, 0))

/-- `DonaDbX::open`: only the log of shard 0 is replayed. -/
def DonaDbX.open (blake3 : Bytes → Bytes32) (cfg : Config) (disk : Disk) : DonaDbX :=
  let (log, index, merkle) := replayInto blake3 (.open disk.active cfg.bufferSize) 0
  let fresh : SegmentMeta :=
    { id := disk.manifest.nextId, isSealed := false, used := 0, minHeight := 0, maxHeight := 2 ^ 64 - 1 }
  let manifest : Manifest :=
    if disk.manifest.segments.any fun m => !m.isSealed then disk.manifest
    else { segments := disk.manifest.segments ++ [fresh], nextId := disk.manifest.nextId + 1 }
  { dbe :=
      { active := log
        rest := disk.shards.map fun file => CommutativeLog.open file cfg.bufferSize
        index, merkle, vcache := .engine }
    gen := 0
    segments := (disk.manifest.segments.filter SegmentMeta.isSealed).map fun info =>
      { info, mmap := disk.segment info.id }
    manifest, cfg, currentHeight := 0 }

/-- A log without records. -/
def freshLog (size : ℕ) : CommutativeLog :=
  { mmap := fun _ => 0, writeOffset := 8, committedOffset := 8, capacity := size }

/-- **A new database.** -/
theorem open_new (cfg : Config) (n : ℕ) : DonaDbX.open blake3 cfg (.empty n) =
    { dbe :=
        { active := freshLog cfg.bufferSize, rest := List.replicate n (freshLog cfg.bufferSize),
          index := ∅, merkle := 0, vcache := .engine }
      gen := 0
      segments := []
      manifest := ⟨[⟨0, false, 0, 0, 2 ^ 64 - 1⟩], 1⟩
      cfg, currentHeight := 0 } := by
  have hreplay : replayInto blake3 (freshLog cfg.bufferSize) 0 = (freshLog cfg.bufferSize, ∅, 0) :=
    if_pos (le_refl 8)
  have hopen := Log.open_empty
  unfold DonaDbX.open Disk.empty
  dsimp only
  rw [List.map_replicate, hopen, ← freshLog, hreplay]
  rfl

def smallConfig : Config := ⟨1024, fun _ => false, by decide, by decide⟩

end TruthLinked.DonaDb.Engine
