import TruthLinked.DonaDb.Accumulator
import TruthLinked.DonaDb.Versions

/-! # Blocks on several shards

The fold thread folds every shard from the accumulator of the request and stores the result of shard 0:
what the other shards bring is lost unless it cancels out (`combined_iff`). The entries of their records
carry an offset and no shard, so a read that misses the cache looks at that offset of shard 0. Where
nothing is written to the other shards both are as they should be, and `get` gives only values that were
written for the key (`shards_sound`). -/

namespace TruthLinked.DonaDb.Shards

open Core.Types Lib.Run Lib.Table Lib.XorGroup DonaDb.Log DonaDb.Fold DonaDb.Cache DonaDb.Block
open DonaDb.Engine DonaDb.History DonaDb.Accumulator DonaDb.Lookup DonaDb.Versions

variable {blake3 : Bytes → Bytes32} {e : DualBufferEngine} {req : FoldReq}

/-! ## The change of a shard -/

/-- The records of a log that are not folded. -/
def unfolded (log : CommutativeLog) : List Record := records log.mmap log.committedOffset log.writeOffset

/-- What the records of a shard change the accumulator by. -/
def shardChange (blake3 : Bytes → Bytes32) (e : DualBufferEngine) (i : ℕ) : Xor 256 :=
  match e.log i with
  | some log => Xor.of (accumulate blake3 e.index (unfolded log) 0)
  | none => 0

/-- The change of shard `j` when its turn comes. -/
def turnChange (blake3 : Bytes → Bytes32) (req : FoldReq) : List ℕ → DualBufferEngine → ℕ → Xor 256
  | [], _, _ => 0
  | i :: order, e, j =>
    if i = j then shardChange blake3 e j else turnChange blake3 req order (foldShard blake3 req e i).1 j

/-- The change of every shard in a commit. -/
def changeOf (blake3 : Bytes → Bytes32) (db : DonaDbX) (s : Schedule) (j : ℕ) : Xor 256 :=
  turnChange blake3 (db.dbe.swap db.gen) (s.order (db.dbe.rest.length + 1)) db.dbe j

/-- The accumulator with the changes of all shards. -/
def combined (blake3 : Bytes → Bytes32) (db : DonaDbX) (s : Schedule) : Xor 256 :=
  Xor.of db.dbe.merkle + ∑ j ∈ Finset.range (db.dbe.rest.length + 1), changeOf blake3 db s j

theorem of_accumulate (index : ShardIndex) (rs : List Record) (acc : Bytes32) :
    Xor.of (accumulate blake3 index rs acc) = Xor.of acc + Xor.of (accumulate blake3 index rs 0) := by
  have hsum : ∀ acc, Xor.of (accumulate blake3 index rs acc) = Xor.of acc +
      ((tombstones rs).map fun r => contribution index r.key).sum +
      ((latest blake3 rs).toList.map fun p => contribution index p.1 + Xor.of (p.1 ^^^ p.2.1)).sum := by
    intro acc
    unfold accumulate
    rw [of_foldl (f := fun p => contribution index p.1 + Xor.of (p.1 ^^^ p.2.1)),
      of_foldl (f := fun r => contribution index r.key)]
    · intro acc r
      exact of_xorOut index r.key acc
    · intro acc p
      rw [of_xor, of_xorOut, add_assoc]
  rw [hsum, hsum 0, of_zero, zero_add, add_assoc]

theorem accumulate_nil (index : ShardIndex) (acc : Bytes32) : accumulate blake3 index [] acc = acc := by
  have hnil : (latest blake3 []).toList = [] := Std.ExtTreeMap.toList_eq_nil_iff.mpr rfl
  unfold accumulate
  rw [hnil]
  rfl

/-- The request ends at the frontiers of the logs. -/
def AtFrontier (req : FoldReq) (e : DualBufferEngine) : Prop := ∀ i, req.ends[i]? = frontier e i

theorem atFrontier_swap (e : DualBufferEngine) (logId : ℕ) : AtFrontier (e.swap logId) e := by
  intro i
  unfold DualBufferEngine.swap Engine.frontier
  dsimp only
  rw [List.getElem?_map]
  cases i <;> rfl

theorem AtFrontier.foldShard (h : AtFrontier req e) (j : ℕ) : AtFrontier req (foldShard blake3 req e j).1 := by
  intro i
  rw [h i, frontier_foldShard]

theorem acc_foldShard (h : AtFrontier req e) (i : ℕ) :
    Xor.of (foldShard blake3 req e i).2.1 = Xor.of req.acc + shardChange blake3 e i := by
  unfold foldShard shardChange
  rw [h i, Engine.frontier]
  cases e.log i with
  | none => exact (add_zero _).symm
  | some log =>
    dsimp only [Option.map_some]
    unfold commitFoldUntil
    split
    case isTrue hle =>
      have hnone : unfolded log = [] := records_empty _ hle
      rw [hnone, accumulate_nil, of_zero, add_zero]
    case isFalse => exact of_accumulate _ _ _

theorem acc_foldShards (order : List ℕ) (h : AtFrontier req e) (j : ℕ) :
    Xor.of ((foldShards blake3 req order e).2.1 j) = Xor.of req.acc + turnChange blake3 req order e j := by
  induction order generalizing e with
  | nil => exact (add_zero _).symm
  | cons i order ih =>
    rw [foldShards, turnChange]
    dsimp only
    by_cases hij : i = j
    · subst hij
      rw [Function.update_self, if_pos rfl]
      exact acc_foldShard h i
    · rw [Function.update_of_ne (Ne.symm hij), if_neg hij]
      exact ih (h.foldShard i)

theorem merkle_commit (blake3 : Bytes → Bytes32) (db : DonaDbX) (height : ℕ) (s : Schedule) :
    (db.commit blake3 height s).dbe.merkle =
      (foldRequest blake3 (s.order (db.dbe.rest.length + 1)) (db.dbe.swap db.gen) db.dbe).1.merkle := by
  unfold DonaDbX.commit
  dsimp only
  split <;> rfl

/-- **A commit stores the change of shard 0 alone.** -/
theorem of_merkle_commit (blake3 : Bytes → Bytes32) (db : DonaDbX) (height : ℕ) (s : Schedule) :
    Xor.of (db.commit blake3 height s).dbe.merkle = Xor.of db.dbe.merkle + changeOf blake3 db s 0 := by
  rw [merkle_commit]
  exact acc_foldShards _ (atFrontier_swap db.dbe db.gen) 0

/-- **The changes of all shards are combined iff those of the others cancel out.** -/
theorem combined_iff (blake3 : Bytes → Bytes32) (db : DonaDbX) (height : ℕ) (s : Schedule) :
    Xor.of (db.commit blake3 height s).dbe.merkle = combined blake3 db s ↔
      ∑ j ∈ Finset.range db.dbe.rest.length, changeOf blake3 db s (j + 1) = 0 := by
  rw [of_merkle_commit, combined, Finset.sum_range_succ', add_comm (∑ j ∈ _, _)]
  constructor
  · intro h
    have hcancel := add_left_cancel h
    rw [left_eq_add] at hcancel
    exact hcancel
  · intro h
    rw [h, add_zero]

theorem log_foldShard_ne {i j : ℕ} (hij : i ≠ j) : (foldShard blake3 req e i).1.log j = e.log j := by
  cases hlog : e.log i with
  | none => rw [foldShard_skip (.inl hlog)]
  | some log =>
    cases hend : req.ends[i]? with
    | none => rw [foldShard_skip (.inr hend)]
    | some endOff => rw [foldShard_eq hlog hend, log_withIndex, log_setLog_ne hij]

theorem turnChange_idle (blake3 : Bytes → Bytes32) {order : List ℕ} {j : ℕ}
    (h : ∀ log, e.log j = some log → log.writeOffset ≤ log.committedOffset) :
    turnChange blake3 req order e j = 0 := by
  induction order generalizing e with
  | nil => rfl
  | cons i order ih =>
    rw [turnChange]
    split
    · unfold shardChange
      cases hlog : e.log j with
      | none => rfl
      | some log =>
        have hnone : unfolded log = [] := records_empty _ (h log hlog)
        dsimp only
        rw [hnone, accumulate_nil, of_zero]
    case isFalse hij =>
      refine ih fun log hlog => ?_
      rw [log_foldShard_ne hij] at hlog
      exact h log hlog

/-! ## What `get` can give -/

section
variable {w w' : World} {segs parts : List (List Record)} {pend rs : List Record} {base : Bytes32 → ℕ}
  {key : Bytes32} {v : Bytes}

/-- The value was written for the key. -/
def Written (ws : List Write) (key : Bytes32) (v : Bytes) : Prop := (⟨key, some v⟩ : Write) ∈ ws

theorem written_of_put {r : Record} (hr : r ∈ rs) (hput : r.deleted = false) :
    Written (rs.map toWrite) r.key r.value := by
  refine List.mem_map.mpr ⟨r, hr, ?_⟩
  simp [toWrite, hput]

theorem foldl_scan_written (h : rs.foldl (fun best r =>
    if r.key = key then (if r.deleted then none else some r.value) else best) none = some v) :
    Written (rs.map toWrite) key v := by
  induction rs using List.reverseRecOn with
  | nil => cases h
  | append_singleton rs r ih =>
    rw [List.foldl_append, List.foldl_cons, List.foldl_nil] at h
    rw [List.map_append]
    split at h
    case isTrue hkey =>
      split at h
      · cases h
      case isFalse hput =>
        obtain rfl := Option.some.inj h
        subst hkey
        exact List.mem_append_right _ (written_of_put List.mem_cons_self (by simpa using hput))
    case isFalse => exact List.mem_append_left _ (ih h)

theorem scanned_written (h : scanned key rs = some v) : Written (rs.map toWrite) key v := by
  obtain ⟨r, hr, rfl⟩ := Option.map_eq_some_iff.mp h
  obtain ⟨hin, rfl⟩ := lastOf_mem hr
  have hput : r.deleted = false := by
    have hall := List.all_takeWhile (l := rs) (p := fun r => !r.deleted)
    simpa using List.all_eq_true.mp hall r hin
  exact written_of_put (List.takeWhile_subset _ hin) hput

theorem getAt_written {segments : List SealedSegment} (h : List.Forall₂ SegmentHolds segments segs)
    {seg : SealedSegment} (hseg : seg ∈ segments) {height : ℕ} (hget : seg.getAt key height = some v) :
    Written (segs.flatten.map toWrite) key v := by
  induction h with
  | nil => cases hseg
  | @cons seg' rs segments segs hholds _ ih =>
    rw [List.flatten_cons, List.map_append]
    rcases List.mem_cons.mp hseg with rfl | hseg
    · have hrange : ¬ (height < seg.info.minHeight ∨ seg.info.maxHeight < height) := by
        intro hout
        rw [SealedSegment.getAt, if_pos hout] at hget
        cases hget
      push Not at hrange
      rw [getAt_of_holds hholds hrange.1 hrange.2] at hget
      exact List.mem_append_left _ (scanned_written hget)
    · exact List.mem_append_right _ (ih hseg)

theorem unindexed_written (h : Chained w segs parts pend base)
    (hget : w.db.getUnindexed key = .ok v) : Written (w.journal.committed ++ w.journal.pending) key v := by
  have hlog := h.tracks.holds
  unfold DonaDbX.getUnindexed at hget
  cases hscan : w.db.dbe.active.scanUnflushed key with
  | some u =>
    rw [hscan] at hget
    obtain rfl := Except.ok.inj hget
    unfold CommutativeLog.scanUnflushed at hscan
    rw [min_eq_left hlog.room, records_of_lays hlog.pend] at hscan
    have hwritten := foldl_scan_written hscan
    rw [h.tracks.pending] at hwritten
    exact List.mem_append_right _ hwritten
  | none =>
    rw [hscan] at hget
    cases hfind : w.db.segments.reverse.findSome? fun seg => seg.getAt key seg.info.maxHeight with
    | none =>
      rw [hfind] at hget
      cases hget
    | some u =>
      rw [hfind] at hget
      obtain rfl := Except.ok.inj hget
      obtain ⟨seg, hseg, hat⟩ := List.exists_of_findSome?_eq_some hfind
      have hwritten := getAt_written h.tracks.sealed (List.mem_reverse.mp hseg) hat
      rw [h.tracks.committed, List.map_append]
      exact List.mem_append_left _ (List.mem_append_left _ hwritten)

/-- The cache holds nothing but committed values. -/
def CacheWritten (c : ValueCache) (ws : List Write) : Prop := ∀ k v, c.held k = some v → Written ws k v

theorem cacheWritten_block {c : ValueCache} {ws : List Write} (h : CacheWritten c ws) (xs : List Write) :
    CacheWritten (xs.foldl cacheWrite c) (ws ++ xs) := by
  induction xs using List.reverseRecOn with
  | nil =>
    rw [List.append_nil]
    exact h
  | append_singleton xs x ih =>
    rw [List.foldl_append, List.foldl_cons, List.foldl_nil, ← List.append_assoc]
    intro k v hk
    unfold cacheWrite at hk
    cases hx : x.value with
    | none =>
      rw [hx] at hk
      exact List.mem_append_left _ (ih k v (held_remove hk).2)
    | some u =>
      rw [hx] at hk
      dsimp only at hk
      split at hk
      · rcases held_insert hk with ⟨rfl, rfl⟩ | ⟨-, hk⟩
        · refine List.mem_append_right _ (List.mem_singleton.mpr ?_)
          rw [← hx]
        · exact List.mem_append_left _ (ih k v hk)
      · exact List.mem_append_left _ (ih k v hk)

/-- **`get` gives only values written for the key.** -/
theorem get_written (h : Chained w segs parts pend base)
    (hcache : CacheWritten w.db.dbe.vcache w.journal.committed) (hget : (w.db.get key).1 = .ok v) :
    Written (w.journal.committed ++ w.journal.pending) key v := by
  unfold DonaDbX.get at hget
  cases he : w.db.dbe.index[key]? with
  | none =>
    rw [he] at hget
    exact unindexed_written h hget
  | some e =>
    rw [he] at hget
    dsimp only at hget
    split at hget
    · cases hget
    · have hheld := fst_get w.db.dbe.vcache key
      cases hc : w.db.dbe.vcache.get key with
      | mk found c =>
        rw [hc] at hget hheld
        cases found with
        | some u =>
          obtain rfl := Except.ok.inj hget
          exact List.mem_append_left _ (hcache key u hheld.symm)
        | none =>
          dsimp only at hget
          split at hget
          case isTrue hgen =>
            cases hread : readFromLog w.db.dbe.active e.offset with
            | error =>
              rw [hread] at hget
              exact unindexed_written h hget
            | ok u =>
              rw [hread] at hget
              obtain rfl := Except.ok.inj hget
              obtain ⟨r, hr, rfl, hoff⟩ := h.indexed he hgen
              have hdecode := (h.tracks.holds.done.decode hr).1
              rw [hoff, readFromLog, hdecode] at hread
              dsimp only at hread
              split at hread
              case isTrue hput =>
                obtain rfl := Except.ok.inj hread
                have hwritten := written_of_put hr hput.1
                rw [h.tracks.committed, List.map_append]
                exact List.mem_append_left _ (List.mem_append_right _ hwritten)
              case isFalse => cases hread
          case isFalse => exact unindexed_written h hget

end

/-! ## Histories -/

section
variable {w : World} {segs parts : List (List Record)} {pend : List Record} {base : Bytes32 → ℕ}

theorem cacheWritten_step (blake3 : Bytes → Bytes32) {op : Op} (h : Tracks w segs parts.flatten pend)
    (hcache : CacheWritten w.db.dbe.vcache w.journal.committed) (hop : Plain w op) :
    CacheWritten (step blake3 w op).db.dbe.vcache (step blake3 w op).journal.committed := by
  have hwrites : ∀ {w' : World} {x : Write} {c : ValueCache}, Writes w x c w' →
      (∀ k v, c.held k = some v → w.db.dbe.vcache.held k = some v) →
      CacheWritten w'.db.dbe.vcache w'.journal.committed := by
    intro w' x c hw hsub k v hk
    cases hw <;> exact hcache k v (hsub k v hk)
  cases op with
  | put key value => exact hwrites (writes_put w hop) fun _ _ hk => hk
  | delete key => exact hwrites (writes_delete w key) fun _ _ hk => (held_remove hk).2
  | writerPut shardId key value =>
    rw [step_writerPut hop.1]
    exact hwrites (writes_put w hop.2) fun _ _ hk => hk
  | get key =>
    obtain ⟨c, hheld, hc⟩ := snd_get w.db key
    rw [History.step, hc]
    intro k v hk
    exact hcache k v (by rwa [← hheld])
  | commit height s =>
    cases hrot : w.rotates with
    | false =>
      rw [step_commit h hrot]
      dsimp only [afterFold]
      rw [foldl_cacheRecord, toWrite_foldedRecords, h.pending, committed_commit]
      exact cacheWritten_block hcache _
    | true =>
      obtain ⟨c, hc⟩ : ∃ c, step blake3 w (.commit height s) = _ := step_commit_rotate h hrot height s
      have hnone : CacheWritten w.db.dbe.vcache.clear
          (w.journal.committed ++ w.journal.pending.take s.cached) := by
        intro k v hk
        rw [held_clear] at hk
        cases hk
      rw [hc]
      dsimp only [History.withCache]
      rw [foldl_cacheRecord, List.map_drop, toWrite_foldedRecords, h.pending, committed_commit]
      have hblock := cacheWritten_block hnone (w.journal.pending.drop s.cached)
      rwa [List.append_assoc, List.take_append_drop] at hblock

end

/-- **The shards of a commit**: what is stored is the combined change iff the changes of the shards other
than shard 0 cancel out, and in a history that writes to shard 0 only it always is, and `get` gives only
values written for the key. -/
theorem shards_sound (blake3 : Bytes → Bytes32) (cfg : Config) (n : ℕ) :
    (∀ (db : DonaDbX) (height : ℕ) (s : Schedule),
      Xor.of (db.commit blake3 height s).dbe.merkle = combined blake3 db s ↔
        ∑ j ∈ Finset.range db.dbe.rest.length, changeOf blake3 db s (j + 1) = 0) ∧
    ∀ ops, Along (step blake3) Plain (start blake3 cfg n) ops →
      (∀ height s, Xor.of ((run (step blake3) (start blake3 cfg n) ops).db.commit blake3 height s).dbe.merkle =
        combined blake3 (run (step blake3) (start blake3 cfg n) ops).db s) ∧
      ∀ key v, ((run (step blake3) (start blake3 cfg n) ops).db.get key).1 = .ok v →
        Written ((run (step blake3) (start blake3 cfg n) ops).journal.committed ++
          (run (step blake3) (start blake3 cfg n) ops).journal.pending) key v := by
  refine ⟨combined_iff blake3, fun ops h => ?_⟩
  obtain ⟨⟨segs, parts, pend, base, hchained⟩, hcache⟩ := h.invariant
    (I := fun w => (∃ segs parts pend base, Chained w segs parts pend base) ∧
      CacheWritten w.db.dbe.vcache w.journal.committed)
    (fun w op hw hop => by
      obtain ⟨⟨segs, parts, pend, base, hw⟩, hcache⟩ := hw
      exact ⟨hw.step blake3 hop, cacheWritten_step blake3 hw.tracks hcache hop⟩)
    ⟨⟨_, _, _, _, chained_start blake3 cfg n⟩, by
      unfold start
      rw [open_new]
      intro k v hk
      rw [held_engine] at hk
      cases hk⟩
  refine ⟨fun height s => ?_, fun key v hget => get_written hchained hcache hget⟩
  refine (combined_iff blake3 _ height s).mpr (Finset.sum_eq_zero fun j _ => ?_)
  refine turnChange_idle blake3 fun log hlog => ?_
  exact hchained.tracks.idle log (List.mem_of_getElem? hlog)

/-- Two keys through writers of shard 0, and one of them deleted but not committed. -/
def plainBlock : List Op := [.writerPut 0 1 [7], .writerPut 2 2 [8], .commit 1 inTurn, .delete 1]

theorem shards_sound_plain :
    ((run (step sampleHash) (start sampleHash smallConfig 1) plainBlock).db.get 1).1 = .ok [7] ∧
    Written ((run (step sampleHash) (start sampleHash smallConfig 1) plainBlock).journal.committed ++
      (run (step sampleHash) (start sampleHash smallConfig 1) plainBlock).journal.pending) 1 [7] := by
  have hshort : ∀ b : UInt8, [b].length < 2 ^ 32 := by simp
  have hplain : Along (step sampleHash) Plain (start sampleHash smallConfig 1) plainBlock :=
    ⟨⟨rfl, hshort 7⟩, ⟨rfl, hshort 8⟩, trivial, trivial, trivial⟩
  have hget : ((run (step sampleHash) (start sampleHash smallConfig 1) plainBlock).db.get 1).1 = .ok [7] := by
    decide +kernel
  exact ⟨hget, ((shards_sound sampleHash smallConfig 1).2 plainBlock hplain).2 1 [7] hget⟩

/-- A record of shard 1 is lost from the accumulator, and the value of another key is read in its place. -/
theorem shard_one_dropped :
    (¬ ∀ (blake3 : Bytes → Bytes32) (cfg : Config) (n : ℕ) (ops : List Op) (height : ℕ) (s : Schedule),
      Xor.of ((run (step blake3) (start blake3 cfg n) ops).db.commit blake3 height s).dbe.merkle =
        combined blake3 (run (step blake3) (start blake3 cfg n) ops).db s) ∧
    ¬ ∀ (blake3 : Bytes → Bytes32) (cfg : Config) (n : ℕ) (ops : List Op) (key : Bytes32) (v : Bytes),
      ((run (step blake3) (start blake3 cfg n) ops).db.get key).1 = .ok v →
        Written ((run (step blake3) (start blake3 cfg n) ops).journal.committed ++
          (run (step blake3) (start blake3 cfg n) ops).journal.pending) key v := by
  constructor
  · intro h
    have hmerkle := h sampleHash smallConfig 1 [.writerPut 1 1 [7]] 1 inTurn
    revert hmerkle
    decide +kernel
  · intro h
    have hwritten := h sampleHash smallConfig 1
      [.put 2 [8], .writerPut 1 1 [7], .commit 1 inTurn, .delete 1] 1 [8] (by decide +kernel)
    revert hwritten
    unfold Written
    decide +kernel

end TruthLinked.DonaDb.Shards
