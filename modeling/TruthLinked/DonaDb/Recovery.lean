import TruthLinked.DonaDb.Accumulator
import TruthLinked.DonaDb.Lookup

/-! # Closing and reopening

Recovery maps the sealed segments and replays the active log of shard 0 record by record, as if every
record were a block of its own. The reopened database has the root and the answers that the database had
after its last commit (`reopen_same`) if the blocks are such that folding them at once and one by one come
to the same, and every key that has no record in the active segment is deleted and out of sight of the
scans of the sealed ones. -/

namespace TruthLinked.DonaDb.Recovery

open Core.Types Core.Bytes Lib.Memory Lib.Run Lib.SortKey Lib.Table Lib.XorGroup DonaDb.Log DonaDb.Fold
open DonaDb.Cache DonaDb.Block DonaDb.Engine DonaDb.History DonaDb.Accumulator DonaDb.Lookup

variable {cfg : Config} {op : Op} {db : DonaDbX} {blake3 : Bytes → Bytes32} {w w' : World}
  {segs : List (List Record)} {done pend rs : List Record}

/-! ## Replay -/

theorem lastPut_singleton (r : Record) (key : Bytes32) :
    lastPut [r] key = if r.deleted = false ∧ r.key = key then some r else none := by
  unfold lastPut
  cases hd : r.deleted with
  | true => simp [hd]
  | false => simp [hd, lastOf_singleton]

theorem lastTombstone_singleton (r : Record) (key : Bytes32) :
    lastTombstone [r] key = if r.deleted = true ∧ r.key = key then some r else none := by
  unfold lastTombstone tombstones
  cases hd : r.deleted with
  | true => simp [hd, lastOf_singleton]
  | false => simp [hd]

theorem replayRecord_index (blake3 : Bytes → Bytes32) (logId : ℕ) (s : ShardIndex × Bytes32)
    (r : Record) (key : Bytes32) :
    (replayRecord blake3 logId s r).1[key]? = entryAfter blake3 s.1 logId [r] key := by
  unfold replayRecord upsert entryAfter
  rw [lastPut_singleton, lastTombstone_singleton]
  cases hd : r.deleted with
  | true =>
    rw [if_pos rfl, getElem?_insert_ite]
    by_cases hkey : r.key = key
    · subst hkey
      simp
    · simp [hkey, Ne.symm hkey]
  | false =>
    rw [if_neg (by simp), getElem?_insert_ite]
    by_cases hkey : r.key = key
    · subst hkey
      have hcount : perBlockCount blake3 [r] r.key = 1 := by
        simp [perBlockCount, hashed, hd, sortByKey]
      simp [hcount]
    · simp [hkey, Ne.symm hkey]

theorem replayRecord_acc (logId : ℕ) (s : ShardIndex × Bytes32) (r : Record) :
    (replayRecord blake3 logId s r).2 = accumulate blake3 s.1 [r] s.2 := by
  have hof : Xor.of (replayRecord blake3 logId s r).2 = Xor.of (accumulate blake3 s.1 [r] s.2) := by
    rw [accumulator_fold (List.pairwise_singleton _ r) (S := {r.key}) (by simp), Finset.sum_singleton, change,
      lastPut_singleton]
    unfold replayRecord
    cases hd : r.deleted with
    | true =>
      simp [of_xorOut, tombstones, hd, one_nsmul]
    | false => simp [of_xor, of_xorOut, tombstones, hd, add_assoc]
  exact hof

theorem cleanBlock_singleton (ws : List Write) (x : Write) : CleanBlock ws [x] := by
  intro y hy
  obtain rfl := List.mem_singleton.mp hy
  exact ⟨by simp, by simp⟩

/-- **The index and the accumulator after a replay.** -/
theorem replay_spec (blake3 : Bytes → Bytes32) (rs : List Record) :
    Located (rs.foldl (replayRecord blake3 0) (∅, 0)).1 0 [] rs ∧
    Indexed blake3 (rs.foldl (replayRecord blake3 0) (∅, 0)).1 (rs.map toWrite) ∧
    (rs.foldl (replayRecord blake3 0) (∅, 0)).2 = liveRoot blake3 (rs.map toWrite) := by
  induction rs using List.reverseRecOn with
  | nil => exact ⟨fun _ => rfl, indexed_nil blake3, rfl⟩
  | append_singleton rs r ih =>
    obtain ⟨hlocated, hindexed, hroot⟩ := ih
    have hclean : CleanBlock (rs.map toWrite) ([r].map toWrite) := cleanBlock_singleton _ _
    rw [List.foldl_append, List.foldl_cons, List.foldl_nil, List.map_append]
    have hindex := replayRecord_index blake3 0 (rs.foldl (replayRecord blake3 0) (∅, 0)) r
    refine ⟨?_, indexed_fold hindexed hclean.noPutAfterDelete hindex, ?_⟩
    · have := located_fold (f := id) hlocated hclean.noPutAfterDelete (fun _ => rfl) (fun _ => rfl)
        (fun _ => rfl) hindex
      rwa [List.map_id] at this
    · rw [replayRecord_acc, hroot]
      exact accumulate_of_clean (List.pairwise_singleton _ r) hindexed hclean

/-! ## What is on disk -/

/-- The header of the file names the committed offset, or nothing if nothing is committed. -/
def HeaderOk (log : CommutativeLog) : Prop :=
  (CommutativeLog.open log.mmap log.capacity).committedOffset = log.committedOffset

theorem headerOk_fresh (size : ℕ) : HeaderOk (freshLog size) := by
  unfold HeaderOk freshLog
  rw [open_empty]

theorem HeaderOk.extends {log log' : CommutativeLog} (h : HeaderOk log) (hext : Extends log log' rs)
    (hstart : 8 ≤ log.writeOffset) : HeaderOk log' := by
  have hheader : u64At log'.mmap 0 = u64At log.mmap 0 := by
    unfold u64At
    rw [read_congr (hext.below.mono le_rfl (by omega))]
  unfold HeaderOk CommutativeLog.open at h ⊢
  dsimp only at h ⊢
  rw [hheader, hext.capacity, hext.committed]
  exact h

theorem HeaderOk.commitFold {log : CommutativeLog} (h : HeaderOk log) (hlog : Holds log done pend)
    (hwidth : log.capacity < 2 ^ 64) (index : ShardIndex) (acc : Bytes32) (logId : ℕ) :
    HeaderOk (commitFoldUntil blake3 log index acc log.writeOffset logId).log := by
  have hdone := hlog.done.le
  have hpend := hlog.pend.le
  have hroom := hlog.room
  rcases Nat.lt_or_ge log.committedOffset log.writeOffset with hlt | hge
  · rcases commitFoldUntil_cases blake3 index acc logId hlog.pend with ⟨rfl, heq⟩ | heq
    · rw [heq]
      exact h
    · have hheader : ∀ m, u64At (write m 0 (leBytes 8 log.writeOffset)) 0 = log.writeOffset := by
        intro m
        have hread := read_write (m := m) (a := 0) [] (leBytes 8 log.writeOffset) []
        rw [List.nil_append, List.append_nil, List.length_nil, Nat.add_zero, length_leBytes] at hread
        rw [u64At, hread, leNat_leBytes (by omega)]
      rw [heq]
      unfold HeaderOk CommutativeLog.open
      dsimp only
      rw [hheader, if_pos ⟨by omega, hroom⟩]
  · unfold commitFoldUntil
    rw [if_pos hge]
    exact h

/-- The manifest lists the sealed segments, each under its own number. -/
structure ManifestOk (db : DonaDbX) : Prop where
  listed : db.manifest.segments.filter SegmentMeta.isSealed = db.segments.map SealedSegment.info
  below : ∀ seg ∈ db.segments, seg.info.id < db.manifest.nextId
  distinct : db.segments.Pairwise fun a b => a.info.id ≠ b.info.id

/-- **The sealed segments are found again.** -/
theorem ManifestOk.reopened (h : ManifestOk db) :
    (db.manifest.segments.filter SegmentMeta.isSealed).map (fun info =>
      (⟨info, ((db.segments.find? fun seg => seg.info.id = info.id).map SealedSegment.mmap).getD
        fun _ => 0⟩ : SealedSegment)) = db.segments := by
  rw [h.listed, List.map_map]
  refine (List.map_congr_left fun seg hseg => ?_).trans (List.map_id _)
  have hfind : (db.segments.find? fun other => other.info.id = seg.info.id) = some seg := by
    refine List.find?_eq_some_iff_append.mpr ⟨by simp, ?_⟩
    obtain ⟨before, after, heq⟩ := List.append_of_mem hseg
    refine ⟨before, after, heq, fun other hother => ?_⟩
    have hpair := h.distinct
    rw [heq, List.pairwise_append] at hpair
    simpa using hpair.2.2 other hother seg List.mem_cons_self
  simp only [Function.comp_apply, hfind, Option.map_some, Option.getD_some, id]

/-- What recovery relies on. -/
structure Kept (cfg : Config) (w : World) : Prop where
  cfg : w.db.cfg = cfg
  header : HeaderOk w.db.dbe.active
  manifest : ManifestOk w.db

theorem kept_start (blake3 : Bytes → Bytes32) (cfg : Config) (n : ℕ) : Kept cfg (start blake3 cfg n) := by
  unfold start
  rw [open_new]
  exact ⟨rfl, headerOk_fresh _, ⟨rfl, by simp, .nil⟩⟩

theorem Kept.writes {x : Write} {c : ValueCache} (h : Kept cfg w)
    (htracks : Tracks w segs done pend) (hw : Writes w x c w') : Kept cfg w' := by
  have hdone := htracks.holds.done.le
  have hpend := htracks.holds.pend.le
  cases hw with
  | failed => exact ⟨h.cfg, h.header, ⟨h.manifest.listed, h.manifest.below, h.manifest.distinct⟩⟩
  | appended ext =>
    exact ⟨h.cfg, h.header.extends ext (by omega),
      ⟨h.manifest.listed, h.manifest.below, h.manifest.distinct⟩⟩

theorem Kept.commit (h : Kept cfg w) (htracks : Tracks w segs done pend) (height : ℕ)
    (s : Schedule) : Kept cfg (step blake3 w (.commit height s)) := by
  have hwidth : w.db.dbe.active.capacity < 2 ^ 64 := by
    rw [htracks.capacity]
    exact w.db.cfg.width
  cases hrot : w.rotates with
  | false =>
    rw [step_commit htracks hrot]
    exact ⟨h.cfg, h.header.commitFold htracks.holds hwidth _ _ _,
      ⟨h.manifest.listed, h.manifest.below, h.manifest.distinct⟩⟩
  | true =>
    obtain ⟨c, hc⟩ : ∃ c, step blake3 w (.commit height s) = _ := step_commit_rotate htracks hrot height s
    rw [hc]
    refine ⟨h.cfg, ?_, ?_, ?_, ?_⟩
    · change HeaderOk (CommutativeLog.open (fun _ => 0) w.db.cfg.bufferSize)
      rw [open_empty]
      exact headerOk_fresh _
    · change (w.db.manifest.segments.filter SegmentMeta.isSealed ++ _ ++ _).filter SegmentMeta.isSealed =
        (w.db.segments ++ _).map SealedSegment.info
      rw [List.filter_append, List.filter_append, List.filter_filter, List.map_append, ← h.manifest.listed]
      simp
    · intro seg hseg
      rcases List.mem_append.mp hseg with hseg | hseg
      · have := h.manifest.below seg hseg
        change seg.info.id < w.db.manifest.nextId + 1 + 1
        omega
      · obtain rfl := List.mem_singleton.mp hseg
        change w.db.manifest.nextId < w.db.manifest.nextId + 1 + 1
        omega
    · refine List.pairwise_append.mpr ⟨h.manifest.distinct, List.pairwise_singleton _ _, ?_⟩
      intro seg hseg new hnew
      obtain rfl := List.mem_singleton.mp hnew
      have := h.manifest.below seg hseg
      change seg.info.id ≠ w.db.manifest.nextId
      omega

/-! ## The reopened database -/

theorem foldl_total {m : ℕ → UInt8} {a b : ℕ} (h : Lays m a rs b) :
    rs.foldl (fun cur r => cur + r.total) a = b := by
  induction rs generalizing a with
  | nil => exact h
  | cons r rs ih => exact ih h.2

theorem replayInto_eq (blake3 : Bytes → Bytes32) {log : CommutativeLog} (hlog : Holds log done pend)
    (hheader : HeaderOk log) :
    replayInto blake3 (CommutativeLog.open log.mmap log.capacity) 0 =
      ({ log with writeOffset := log.committedOffset }, done.foldl (replayRecord blake3 0) (∅, 0)) := by
  have hopen : CommutativeLog.open log.mmap log.capacity =
      { log with writeOffset := log.committedOffset } := by
    unfold HeaderOk CommutativeLog.open at hheader
    unfold CommutativeLog.open
    dsimp only at hheader ⊢
    rw [hheader]
  have hle := hlog.done.le
  rw [hopen]
  unfold replayInto
  dsimp only
  split
  case isTrue hsmall =>
    have hdone : done = [] := by
      cases done with
      | nil => rfl
      | cons r rs =>
        have h1 := hlog.done.2.le
        have h2 := r.total_pos
        omega
    rw [hdone]
    rfl
  case isFalse =>
    rw [records_of_lays hlog.done, foldl_total hlog.done]
    unfold CommutativeLog.setCommitted
    dsimp only
    rw [max_self]

/-- The parts of the reopened database. -/
structure Reopened (blake3 : Bytes → Bytes32) (w : World) (done : List Record) (db : DonaDbX) : Prop where
  log : Holds db.dbe.active done []
  index : db.dbe.index = (done.foldl (replayRecord blake3 0) (∅, 0)).1
  merkle : db.dbe.merkle = (done.foldl (replayRecord blake3 0) (∅, 0)).2
  cache : db.dbe.vcache = .engine
  gen : db.gen = 0
  segments : db.segments = w.db.segments

theorem reopened (blake3 : Bytes → Bytes32) (h : Kept cfg w) (htracks : Tracks w segs done pend) :
    Reopened blake3 w done (.open blake3 cfg w.db.close) := by
  have hlog := htracks.holds
  have hpend := hlog.pend.le
  have hroom := hlog.room
  have hreplay := replayInto_eq blake3 hlog h.header
  have hcapacity := htracks.capacity
  rw [h.cfg] at hcapacity
  rw [hcapacity] at hreplay
  unfold DonaDbX.open DonaDbX.close
  dsimp only
  rw [hreplay]
  exact ⟨⟨hlog.done, rfl, by dsimp only; omega⟩, rfl, rfl, rfl, rfl, h.manifest.reopened⟩

/-- Every key without a record in the active segment is deleted, and no put of it stands in front of the
first deletion of a sealed segment. -/
def Recoverable (j : Journal) : Prop :=
  ∀ x ∈ j.committed, lastOf Write.key x.key (writesOf j.blocks) = none →
    liveValue j.committed x.key = none ∧
      ∀ seg ∈ j.segments, liveValue ((writesOf seg).takeWhile fun y => y.value.isSome) x.key = none

instance (j : Journal) : Decidable (Recoverable j) :=
  inferInstanceAs (Decidable (∀ x ∈ j.committed, lastOf Write.key x.key (writesOf j.blocks) = none →
    liveValue j.committed x.key = none ∧
      ∀ seg ∈ j.segments, liveValue ((writesOf seg).takeWhile fun y => y.value.isSome) x.key = none))

theorem Recoverable.unseen (h : Recoverable w.journal) (htracks : Tracks w segs done pend) {key : Bytes32}
    (hnone : lastOf Record.key key done = none) :
    liveValue w.journal.committed key = none ∧ ∀ rs ∈ segs, scanned key rs = none := by
  by_cases hin : ∃ x ∈ w.journal.committed, x.key = key
  · obtain ⟨x, hx, rfl⟩ := hin
    have hblocks : lastOf Write.key x.key (writesOf w.journal.blocks) = none := by
      rw [← htracks.blocks, lastOf_toWrite, hnone]
      rfl
    obtain ⟨hlive, hscan⟩ := h x hx hblocks
    refine ⟨hlive, fun rs hrs => ?_⟩
    have hmem : rs.map toWrite ∈ w.journal.segments.map writesOf := by
      rw [← htracks.segments]
      exact List.mem_map_of_mem hrs
    obtain ⟨seg, hseg, hwrites⟩ := List.mem_map.mp hmem
    rw [scanned_eq, ← hwrites]
    exact hscan seg hseg
  · push Not at hin
    refine ⟨liveValue_eq_none hin, fun rs hrs => scanned_of_none (lastOf_eq_none.mpr fun r hr => ?_)⟩
    refine hin (toWrite r) ?_
    rw [htracks.committed]
    exact List.mem_map_of_mem (List.mem_append_left _ (List.mem_flatten.mpr ⟨rs, hrs, hr⟩))

theorem getAt_of_unseen {segments : List SealedSegment} (h : List.Forall₂ SegmentHolds segments segs)
    {key : Bytes32} (hscan : ∀ rs ∈ segs, scanned key rs = none) :
    ∀ seg ∈ segments, seg.getAt key seg.info.maxHeight = none := by
  induction h with
  | nil => simp
  | @cons seg rs segments segs hseg _ ih =>
    obtain ⟨hhead, htail⟩ := List.forall_mem_cons.mp hscan
    refine List.forall_mem_cons.mpr ⟨?_, ih htail⟩
    by_cases hheights : seg.info.minHeight ≤ seg.info.maxHeight
    · rw [getAt_of_holds hseg hheights le_rfl, hhead]
    · exact if_pos (.inl (by omega))

theorem getUnindexed_unseen {segments : List SealedSegment}
    (hlog : Holds db.dbe.active done []) (hsegments : db.segments = segments)
    (hsealed : List.Forall₂ SegmentHolds segments segs) {key : Bytes32}
    (hscan : ∀ rs ∈ segs, scanned key rs = none) : db.getUnindexed key = .error .notFound := by
  have hnone := getAt_of_unseen hsealed hscan
  rw [getUnindexed_of_folded hlog, hsegments, List.findSome?_eq_none_iff.mpr]
  · rfl
  · exact fun seg hseg => hnone seg (List.mem_reverse.mp hseg)

theorem Recoverable.liveValue_blocks (h : Recoverable w.journal) (htracks : Tracks w segs done pend)
    (key : Bytes32) : liveValue (done.map toWrite) key = liveValue w.journal.committed key := by
  cases hlast : lastOf Record.key key done with
  | none =>
    rw [(h.unseen htracks hlast).1, liveValue, lastOf_toWrite, hlast]
    rfl
  | some r =>
    rw [htracks.committed, liveValue, liveValue, lastOf_toWrite, lastOf_toWrite, lastOf_append, hlast]
    rfl

theorem Reopened.get (h : Reopened blake3 w done db) (htracks : Tracks w segs done pend)
    (hrec : Recoverable w.journal) (key : Bytes32) : (db.get key).1 = answer w.journal.committed key := by
  obtain ⟨hlocated, -, -⟩ := replay_spec blake3 done
  have hvalue := hrec.liveValue_blocks htracks key
  have hcache : CacheOk db.dbe.vcache (([] ++ done).map toWrite) := by
    rw [h.cache]
    exact cacheOk_of_empty held_engine _
  rw [← h.index, ← h.gen] at hlocated
  have hget := get_of_located h.log hlocated hcache key fun hnone _ => by
    obtain ⟨hlive, hscan⟩ := hrec.unseen htracks hnone
    rw [getUnindexed_unseen h.log h.segments htracks.sealed hscan, answer, List.nil_append, hvalue, hlive]
    rfl
  rw [hget, answer, List.nil_append, hvalue]
  rfl

/-! ## Histories -/

/-- Writes go to shard 0 and fit, and every committed block is clean and leaves nothing stale cached. -/
def RecoverStep (w : World) (op : Op) : Prop :=
  Plain w op ∧ match op with
    | .commit _ s =>
      CleanBlock w.journal.committed w.journal.pending ∧
      (if w.rotates then NoStale w.db.dbe.vcache.clear (w.journal.pending.drop s.cached)
      else NoStale w.db.dbe.vcache w.journal.pending)
    | _ => True

theorem noPutAfter_of_clean {ws pend : List Write} (h : CleanBlock ws pend) : NoPutAfter pend := by
  intro x hx hnone
  unfold liveValue
  cases hlast : lastOf Write.key x.key pend with
  | none => rfl
  | some y =>
    obtain ⟨hy, hkey⟩ := lastOf_mem hlast
    have hsame := (h x hx).1 y hy hkey
    rw [hnone] at hsame
    exact Option.not_isSome_iff_eq_none.mp (by simp [hsame])

theorem RecoverStep.clean (h : RecoverStep w op) : CleanStep w op := by
  refine ⟨h.1, ?_⟩
  cases op with
  | commit => exact h.2.1
  | _ => trivial

theorem RecoverStep.current (h : RecoverStep w op) : CurrentStep w op := by
  refine ⟨h.1, ?_⟩
  cases op with
  | commit => exact ⟨noPutAfter_of_clean h.2.1, h.2.2⟩
  | _ => trivial

theorem Kept.step (h : Kept cfg w) (htracks : Tracks w segs done pend)
    (hop : Plain w op) : Kept cfg (step blake3 w op) := by
  cases op with
  | put key value => exact h.writes htracks (writes_put w hop)
  | delete key => exact h.writes htracks (writes_delete w key)
  | writerPut shardId key value =>
    rw [step_writerPut hop.1]
    exact h.writes htracks (writes_put w hop.2)
  | get key =>
    obtain ⟨c, -, hc⟩ := snd_get w.db key
    rw [History.step, hc]
    exact ⟨h.cfg, h.header, ⟨h.manifest.listed, h.manifest.below, h.manifest.distinct⟩⟩
  | commit height s => exact h.commit htracks height s

/-- Everything that recovery needs. -/
def Sound (blake3 : Bytes → Bytes32) (cfg : Config) (w : World) : Prop :=
  Rooted blake3 w ∧ (∃ segs done pend, Current w segs done pend) ∧ Kept cfg w

theorem Sound.step (h : Sound blake3 cfg w) (hop : RecoverStep w op) :
    Sound blake3 cfg (step blake3 w op) := by
  obtain ⟨hrooted, ⟨segs, done, pend, hcurrent⟩, hkept⟩ := h
  obtain ⟨new, done', pend', hcurrent', -⟩ := hcurrent.step blake3 hop.current
  exact ⟨hrooted.step hop.clean, ⟨_, done', pend', hcurrent'⟩, hkept.step hcurrent.tracks hop.1⟩

theorem sound_run {n : ℕ} {ops : List Op} (h : Along (step blake3) RecoverStep (start blake3 cfg n) ops) :
    Sound blake3 cfg (run (step blake3) (start blake3 cfg n) ops) :=
  h.invariant (I := Sound blake3 cfg) (fun _ _ hw hop => hw.step hop)
    ⟨rooted_start blake3 cfg n, ⟨_, _, _, (readable_start blake3 cfg n).toCurrent⟩, kept_start blake3 cfg n⟩

/-- The call commits. -/
def IsCommit : Op → Bool
  | .commit _ _ => true
  | _ => false

theorem journal_run {ops : List Op} (h : ∀ op ∈ ops, IsCommit op = false) (w : World) :
    (run (step blake3) w ops).journal.segments = w.journal.segments ∧
    (run (step blake3) w ops).journal.blocks = w.journal.blocks := by
  have hnote : ∀ (w : World) res x, (w.note res x).journal.segments = w.journal.segments ∧
      (w.note res x).journal.blocks = w.journal.blocks := by
    intro w res x
    obtain ⟨res, db⟩ := res
    cases res <;> exact ⟨rfl, rfl⟩
  induction ops generalizing w with
  | nil => exact ⟨rfl, rfl⟩
  | cons op ops ih =>
    obtain ⟨hop, hrest⟩ := List.forall_mem_cons.mp h
    obtain ⟨h1, h2⟩ := ih hrest (step blake3 w op)
    rw [run_cons, h1, h2]
    cases op with
    | put => exact hnote w _ _
    | delete => exact hnote w _ _
    | writerPut => exact hnote w _ _
    | get => exact ⟨rfl, rfl⟩
    | commit => cases hop

/-- **A reopened database is what it was after its last commit**, in root and answers, for every history
of clean blocks that leaves every key to the active segment or deleted. -/
theorem reopen_same (blake3 : Bytes → Bytes32) (cfg : Config) (n : ℕ) (ops post : List Op)
    (h : Along (step blake3) RecoverStep (start blake3 cfg n) (ops ++ post))
    (hcommitted : (run (step blake3) (start blake3 cfg n) ops).journal.pending = [])
    (hpost : ∀ op ∈ post, IsCommit op = false)
    (hrec : Recoverable (run (step blake3) (start blake3 cfg n) ops).journal) :
    (DonaDbX.open blake3 cfg (run (step blake3) (start blake3 cfg n) (ops ++ post)).db.close).stateRoot
        blake3 = (run (step blake3) (start blake3 cfg n) ops).db.stateRoot blake3 ∧
    ∀ key, ((DonaDbX.open blake3 cfg
        (run (step blake3) (start blake3 cfg n) (ops ++ post)).db.close).get key).1 =
      ((run (step blake3) (start blake3 cfg n) ops).db.get key).1 := by
  obtain ⟨⟨_, _, _, _, _, hroot⟩, ⟨segs, done, pend, hbefore⟩, -⟩ := sound_run h.of_append.1
  obtain ⟨-, ⟨segs', done', pend', hafter⟩, hkept⟩ := sound_run h
  set w := run (step blake3) (start blake3 cfg n) ops
  set w' := run (step blake3) (start blake3 cfg n) (ops ++ post) with hw'
  -- what came after the last commit is not in the journal's blocks
  have hjournal : w'.journal.segments = w.journal.segments ∧ w'.journal.blocks = w.journal.blocks := by
    rw [hw', run_append]
    exact journal_run hpost w
  have hsame : w'.journal.committed = w.journal.committed := by
    unfold Journal.committed
    rw [hjournal.1, hjournal.2]
  have hrec' : Recoverable w'.journal := by
    unfold Recoverable
    rw [hsame, hjournal.1, hjournal.2]
    exact hrec
  have hreopened := reopened blake3 hkept hafter.tracks
  refine ⟨?_, fun key => ?_⟩
  · have hlive := hrec'.liveValue_blocks hafter.tracks
    unfold DonaDbX.stateRoot
    rw [hreopened.merkle, (replay_spec blake3 done').2.2, liveRoot_congr hlive, hsame, hroot]
  · have hpend := hbefore.tracks.pending
    rw [hcommitted, List.map_eq_nil_iff] at hpend
    subst hpend
    rw [hreopened.get hafter.tracks hrec' key, hsame]
    refine (hbefore.get key fun hnone _ => ?_).symm
    obtain ⟨hlive, hscan⟩ := hrec.unseen hbefore.tracks hnone
    rw [getUnindexed_unseen hbefore.tracks.holds rfl hbefore.tracks.sealed hscan, answer, hlive]
    rfl

/-- A key that is put again after its segment was sealed, and one that was never put. -/
def sealedAndPut : List Op := [.put 1 [7], .delete 2, .commit 1 foldFirst, .put 1 [8], .commit 2 foldFirst]

theorem reopen_sealed_and_put :
    (run (step sampleHash) (start sampleHash rotatingConfig 1) sealedAndPut).db.segments.length = 1 ∧
    (DonaDbX.open sampleHash rotatingConfig (run (step sampleHash) (start sampleHash rotatingConfig 1)
        (sealedAndPut ++ [.put 1 [9]])).db.close).stateRoot sampleHash =
      (run (step sampleHash) (start sampleHash rotatingConfig 1) sealedAndPut).db.stateRoot sampleHash ∧
    ∀ key, ((DonaDbX.open sampleHash rotatingConfig (run (step sampleHash)
        (start sampleHash rotatingConfig 1) (sealedAndPut ++ [.put 1 [9]])).db.close).get key).1 =
      ((run (step sampleHash) (start sampleHash rotatingConfig 1) sealedAndPut).db.get key).1 := by
  have hshort : ∀ b : UInt8, [b].length < 2 ^ 32 := by simp
  have hfirst : RecoverStep (run (step sampleHash) (start sampleHash rotatingConfig 1)
      [.put 1 [7], .delete 2]) (.commit 1 foldFirst) := by
    refine ⟨trivial, by decide +kernel, ?_⟩
    rw [if_pos (by decide +kernel)]
    exact noStale_of_short (by decide +kernel) _
  have hsecond : RecoverStep (run (step sampleHash) (start sampleHash rotatingConfig 1)
      [.put 1 [7], .delete 2, .commit 1 foldFirst, .put 1 [8]]) (.commit 2 foldFirst) := by
    refine ⟨trivial, by decide +kernel, ?_⟩
    rw [if_neg (by decide +kernel)]
    exact noStale_of_short (by decide +kernel) _
  refine ⟨by decide +kernel, reopen_same sampleHash rotatingConfig 1 sealedAndPut [.put 1 [9]] ?_
    (by decide +kernel) (by simp [IsCommit]) (by decide +kernel)⟩
  exact ⟨⟨hshort 7, trivial⟩, ⟨trivial, trivial⟩, hfirst, ⟨hshort 8, trivial⟩, hsecond,
    ⟨hshort 9, trivial⟩, trivial⟩

/-- A rotation takes the sealed keys out of the recovered root. -/
theorem rotation_changes_root : ¬ ∀ (blake3 : Bytes → Bytes32) (cfg : Config) (n : ℕ) (ops post : List Op),
    (run (step blake3) (start blake3 cfg n) ops).journal.pending = [] →
      (∀ op ∈ post, IsCommit op = false) →
      (DonaDbX.open blake3 cfg (run (step blake3) (start blake3 cfg n) (ops ++ post)).db.close).stateRoot
          blake3 = (run (step blake3) (start blake3 cfg n) ops).db.stateRoot blake3 ∧
      ∀ key, ((DonaDbX.open blake3 cfg
          (run (step blake3) (start blake3 cfg n) (ops ++ post)).db.close).get key).1 =
        ((run (step blake3) (start blake3 cfg n) ops).db.get key).1 := by
  intro h
  have hroot := (h sampleHash rotatingConfig 1 [.put 1 [7], .put 2 [8], .commit 1 foldFirst] []
    (by decide +kernel) (by simp)).1
  revert hroot
  decide +kernel

end TruthLinked.DonaDb.Recovery
