import TruthLinked.DonaDb.Shards

/-! # Execution frames

An `ExecutionFrame` of `engine.rs` is the write offset of the active log at its opening: its puts go to
the log like all others, and `abort` sets the offset back to where it was. That takes the frame's
uncommitted writes away, and them only, iff nothing written since the opening is folded or is another
writer's, or, after a rotation, the frame has written nothing since (`abort_clean_iff`). -/

namespace TruthLinked.DonaDb.Frames

open Core.Types Lib.Memory Lib.Run Lib.SortKey DonaDb.Log DonaDb.Fold DonaDb.Cache DonaDb.Block
open DonaDb.Engine DonaDb.History DonaDb.Shards

/-! ## Frames -/

/-- `ExecutionFrame`. -/
structure ExecutionFrame where
  start : ℕ
  logId : ℕ
  deriving DecidableEq

/-- `DonaDbX::begin_frame`. -/
def beginFrame (db : DonaDbX) : ExecutionFrame := { start := db.dbe.active.writeOffset, logId := db.gen }

/-- `ExecutionFrame::put`. -/
def ExecutionFrame.put (_frame : ExecutionFrame) (db : DonaDbX) (key : Bytes32) (value : Bytes) :
    Except DbError ℕ × DonaDbX := db.put key value

/-- `ExecutionFrame::abort`, when no write is in flight. -/
def ExecutionFrame.abort (frame : ExecutionFrame) (db : DonaDbX) : DonaDbX :=
  if db.gen ≠ frame.logId then db
  else
    let log := db.dbe.active
    let mmap :=
      if frame.start < log.writeOffset then
        write log.mmap frame.start (List.replicate (log.writeOffset - frame.start) 0)
      else log.mmap
    { db with dbe := { db.dbe with active := { log with mmap, writeOffset := frame.start } } }

/-- A database with an open frame; `own` are the offsets of what the frame has written since the last
commit. -/
structure Framed where
  world : World
  frame : ExecutionFrame
  own : List ℕ

/-- A put of the frame, or a call of anybody else. -/
inductive FrameOp where
  | framePut (key : Bytes32) (value : Bytes)
  | other (op : Op)

/-- One call. -/
def frameStep (blake3 : Bytes → Bytes32) (f : Framed) : FrameOp → Framed
  | .framePut key value =>
    match f.frame.put f.world.db key value with
    | (.ok off, db) =>
      { f with
        world := f.world.note (.ok off, db) ⟨key, some value⟩
        own := f.own ++ [off] }
    | (.error err, db) => { f with world := f.world.note (.error err, db) ⟨key, some value⟩ }
  | .other (.commit height s) => { f with world := step blake3 f.world (.commit height s), own := [] }
  | .other op => { f with world := step blake3 f.world op }

/-- The database with a new frame. -/
def openFrame (w : World) : Framed := { world := w, frame := beginFrame w.db, own := [] }

/-- No value is too long for its length field. -/
def Short : Op → Prop
  | .put _ value | .writerPut _ _ value => value.length < 2 ^ 32
  | _ => True

/-- The same for the calls around a frame. -/
def FrameOp.Short : FrameOp → Prop
  | .framePut _ value => value.length < 2 ^ 32
  | .other op => Frames.Short op

/-! ## What an abort should do -/

/-- The abort takes away what the frame has written since the last commit and nothing else. -/
structure Clean (f : Framed) (db : DonaDbX) : Prop where
  frontier : db.dbe.active.committedOffset ≤ db.dbe.active.writeOffset
  committed : ∀ r ∈ records f.world.db.dbe.active.mmap 8 f.world.db.dbe.active.committedOffset,
    decode db.dbe.active.mmap r.offset = some r
  pending : unfolded db.dbe.active =
    (unfolded f.world.db.dbe.active).filter fun r => r.offset ∉ f.own
  elsewhere : db = { f.world.db with dbe := { f.world.db.dbe with active := db.dbe.active } }

/-- The frame is alone in the stretch that an abort clears, or has nothing to clear. -/
def Alone (f : Framed) : Prop :=
  if f.world.db.gen = f.frame.logId then
    f.world.db.dbe.active.committedOffset ≤ f.frame.start ∧
      ∀ r ∈ unfolded f.world.db.dbe.active, f.frame.start ≤ r.offset → r.offset ∈ f.own
  else f.own = []

instance : DecidablePred Alone := fun f =>
  inferInstanceAs (Decidable (if f.world.db.gen = f.frame.logId then
    f.world.db.dbe.active.committedOffset ≤ f.frame.start ∧
      ∀ r ∈ unfolded f.world.db.dbe.active, f.frame.start ≤ r.offset → r.offset ∈ f.own
  else f.own = []))

/-! ## The active log in a commit -/

section
variable {blake3 : Bytes → Bytes32} {e : DualBufferEngine} {req : FoldReq} {log : CommutativeLog} {i : ℕ}

theorem log_foldShards_ne {order : List ℕ} (h : i ∉ order) :
    (foldShards blake3 req order e).1.log i = e.log i := by
  induction order generalizing e with
  | nil => rfl
  | cons j order ih =>
    rw [List.mem_cons, not_or] at h
    rw [foldShards]
    exact (ih h.2).trans (log_foldShard_ne (Ne.symm h.1))

theorem log_foldShards {order : List ℕ} (hreq : AtFrontier req e) (hin : i ∈ order) (hnodup : order.Nodup)
    (hlog : e.log i = some log) : ∃ index, (foldShards blake3 req order e).1.log i =
      some (commitFoldUntil blake3 log index req.acc log.writeOffset req.logId).log := by
  induction order generalizing e with
  | nil => cases hin
  | cons j order ih =>
    obtain ⟨hj, horder⟩ := List.nodup_cons.mp hnodup
    rw [foldShards]
    dsimp only
    by_cases hij : i = j
    · subst hij
      have hend : req.ends[i]? = some log.writeOffset := by
        rw [hreq i, Engine.frontier, hlog]
        rfl
      rw [log_foldShards_ne hj, foldShard_eq hlog hend, log_withIndex, log_setLog_self hlog]
      exact ⟨e.index, rfl⟩
    · refine ih (hreq.foldShard j) ?_ horder ((log_foldShard_ne (Ne.symm hij)).trans hlog)
      exact (List.mem_cons.mp hin).resolve_left hij

/-- **What a commit does to the active log**: it is folded, or a new one takes its place. -/
theorem active_commit (blake3 : Bytes → Bytes32) (db : DonaDbX) (height : ℕ) (s : Schedule) :
    ((db.commit blake3 height s).gen = db.gen ∧ ∃ index, (db.commit blake3 height s).dbe.active =
      (commitFoldUntil blake3 db.dbe.active index db.dbe.merkle db.dbe.active.writeOffset db.gen).log) ∨
    ((db.commit blake3 height s).gen = db.gen + 1 ∧
      ∃ size, 8 ≤ size ∧ (db.commit blake3 height s).dbe.active = freshLog size) := by
  have hperm := sortByKey_perm s.turn (List.range (db.dbe.rest.length + 1))
  obtain ⟨index, hindex⟩ := log_foldShards
    (atFrontier_swap db.dbe db.gen) (hperm.mem_iff.mpr (by simp)) (hperm.nodup_iff.mpr List.nodup_range)
    (rfl : db.dbe.log 0 = some db.dbe.active)
  have hactive := Option.some.inj hindex
  have hopen := Log.open_empty db.cfg.bufferSize
  unfold DonaDbX.commit foldRequest
  dsimp only
  split
  · exact .inr ⟨rfl, db.cfg.bufferSize, db.cfg.header, hopen⟩
  · exact .inl ⟨rfl, index, hactive⟩

end

/-! ## Runs with an open frame -/

variable {blake3 : Bytes → Bytes32} {w : World} {f : Framed} {done pend : List Record}

/-- The active log consists of records; the frame's own are not folded and lie behind its start, and so
does all that was written since. -/
structure Spans (f : Framed) (done pend : List Record) : Prop where
  holds : Holds f.world.db.dbe.active done pend
  own : ∀ off ∈ f.own, ∃ r ∈ pend, r.offset = off
  later : f.frame.logId ≤ f.world.db.gen
  behind : f.world.db.gen = f.frame.logId →
    f.frame.start ≤ f.world.db.dbe.active.writeOffset ∧ (∀ off ∈ f.own, f.frame.start ≤ off) ∧
      (f.world.db.dbe.active.committedOffset ≤ f.frame.start → ∃ before since, pend = before ++ since ∧
        Lays f.world.db.dbe.active.mmap f.world.db.dbe.active.committedOffset before f.frame.start ∧
        Lays f.world.db.dbe.active.mmap f.frame.start since f.world.db.dbe.active.writeOffset)

/-- A write to a log fails or appends a record. -/
def Appends (log log' : CommutativeLog) : Prop :=
  log' = log ∨ ∃ r, Extends log log' [r] ∧ log'.writeOffset ≤ log.capacity

theorem offset_of_extends {log log' : CommutativeLog} {r : Record} (h : Extends log log' [r]) :
    r.offset = log.writeOffset := decode_offset h.lays.1

theorem appends_run {log log' : CommutativeLog} {c : Call} {res : Except DbError ℕ}
    (h : c.run log = (res, log')) (hshort : (c.record log.writeOffset).value.length < 2 ^ 32) :
    (res = .error .logFull ∧ log' = log) ∨
      (res = .ok log.writeOffset ∧ ∃ r, Extends log log' [r] ∧ log'.writeOffset ≤ log.capacity) := by
  rcases run_cases h with ⟨rfl, rfl⟩ | ⟨rfl, hroom, hext⟩
  · exact .inl ⟨rfl, rfl⟩
  · exact .inr ⟨rfl, _, hext hshort, hroom⟩

theorem holds_appended {log log' : CommutativeLog} {r : Record} (h : Holds log done pend)
    (ext : Extends log log' [r]) (room : log'.writeOffset ≤ log.capacity) : Holds log' done (pend ++ [r]) := by
  refine ⟨?_, ?_, ?_⟩
  · rw [ext.committed]
    exact h.done.congr (ext.below.mono (Nat.zero_le _) h.pend.le)
  · rw [ext.committed]
    exact (h.pend.congr (ext.below.mono (Nat.zero_le _) le_rfl)).append ext.lays
  · rw [ext.capacity]
    exact room

theorem Spans.appended {f' : Framed} {r : Record} (h : Spans f done pend)
    (ext : Extends f.world.db.dbe.active f'.world.db.dbe.active [r])
    (room : f'.world.db.dbe.active.writeOffset ≤ f.world.db.dbe.active.capacity)
    (hgen : f'.world.db.gen = f.world.db.gen) (hframe : f'.frame = f.frame)
    (hown : f'.own = f.own ∨ f'.own = f.own ++ [r.offset]) : Spans f' done (pend ++ [r]) := by
  have hoff := offset_of_extends ext
  have hmem : ∀ off ∈ f'.own, off ∈ f.own ∨ off = r.offset := by
    intro off hin
    rcases hown with hown | hown
    · exact .inl (hown ▸ hin)
    · rw [hown] at hin
      simpa using hin
  refine ⟨holds_appended h.holds ext room, ?_, ?_, ?_⟩
  · intro off hin
    rcases hmem off hin with hin | rfl
    · obtain ⟨q, hq, hqoff⟩ := h.own off hin
      exact ⟨q, List.mem_append_left _ hq, hqoff⟩
    · exact ⟨r, by simp, rfl⟩
  · rw [hgen, hframe]
    exact h.later
  · rw [hgen, hframe]
    intro hsame
    obtain ⟨hstart, hbehind, hsplit⟩ := h.behind hsame
    have hle := ext.lays.le
    refine ⟨by omega, ?_, ?_⟩
    · intro off hin
      rcases hmem off hin with hin | rfl
      · exact hbehind off hin
      · rw [hoff]
        exact hstart
    · rw [ext.committed]
      intro hcommitted
      obtain ⟨before, since, rfl, hbefore, hsince⟩ := hsplit hcommitted
      refine ⟨before, since ++ [r], List.append_assoc _ _ _, ?_, ?_⟩
      · exact hbefore.congr (ext.below.mono (Nat.zero_le _) hstart)
      · exact (hsince.congr (ext.below.mono (Nat.zero_le _) le_rfl)).append ext.lays

theorem Spans.congr {f' : Framed} (h : Spans f done pend)
    (hlog : f'.world.db.dbe.active = f.world.db.dbe.active) (hgen : f'.world.db.gen = f.world.db.gen)
    (hframe : f'.frame = f.frame) (hown : f'.own = f.own) : Spans f' done pend := by
  refine ⟨?_, ?_, ?_, ?_⟩
  · rw [hlog]
    exact h.holds
  · rw [hown]
    exact h.own
  · rw [hgen, hframe]
    exact h.later
  · rw [hlog, hgen, hframe, hown]
    exact h.behind

/-- A call of somebody else that writes to the active log or not at all. -/
theorem Spans.appends {w' : World} (h : Spans f done pend)
    (happ : Appends f.world.db.dbe.active w'.db.dbe.active) (hgen : w'.db.gen = f.world.db.gen) :
    ∃ pend', Spans { f with world := w' } done pend' := by
  rcases happ with hsame | ⟨r, ext, room⟩
  · exact ⟨pend, h.congr hsame hgen rfl rfl⟩
  · exact ⟨_, h.appended ext room hgen rfl (.inl rfl)⟩

/-- **A commit leaves nothing of the frame's own unfolded.** -/
theorem Spans.commit (blake3 : Bytes → Bytes32) (h : Spans f done pend) (height : ℕ) (s : Schedule) :
    ∃ done', Spans (frameStep blake3 f (.other (.commit height s))) done' [] := by
  rcases active_commit blake3 f.world.db height s with ⟨hgen, index, hactive⟩ | ⟨hgen, size, hsize, hactive⟩
  · have hfrontier := frontier_commitFold blake3 index f.world.db.dbe.merkle f.world.db.gen h.holds.pend
    have hholds := holds_commitFold blake3 index f.world.db.dbe.merkle f.world.db.gen h.holds
    rw [← hactive] at hfrontier hholds
    obtain ⟨hwrite, hcommitted, -⟩ := hfrontier
    refine ⟨_, hholds, fun _ hoff => (nomatch hoff), ?_, ?_⟩
    · exact h.later.trans hgen.ge
    · intro hsame
      obtain ⟨hstart, -, -⟩ := h.behind (hgen.symm.trans hsame)
      refine ⟨hstart.trans hwrite.ge, fun _ hoff => (nomatch hoff), fun hle => ?_⟩
      have heq : f.frame.start = f.world.db.dbe.active.writeOffset := le_antisymm hstart (hcommitted ▸ hle)
      exact ⟨[], [], rfl, hcommitted.trans heq.symm, heq.trans hwrite.symm⟩
  · refine ⟨[], ?_, fun _ hoff => (nomatch hoff), ?_, ?_⟩
    · change Holds (f.world.db.commit blake3 height s).dbe.active [] []
      rw [hactive]
      exact ⟨rfl, rfl, hsize⟩
    · exact h.later.trans (Nat.le_of_lt (Nat.lt_of_lt_of_eq (Nat.lt_succ_self _) hgen.symm))
    · intro hsame
      have hlater := h.later
      change (f.world.db.commit blake3 height s).gen = f.frame.logId at hsame
      omega

theorem frameStep_other {op : Op} (hop : ∀ height s, op ≠ .commit height s) :
    frameStep blake3 f (.other op) = { f with world := step blake3 f.world op } := by
  cases op with
  | commit height s => exact absurd rfl (hop height s)
  | _ => rfl

theorem appends_step (blake3 : Bytes → Bytes32) (w : World) {op : Op} (hop : ∀ height s, op ≠ .commit height s)
    (hshort : Short op) :
    Appends w.db.dbe.active (step blake3 w op).db.dbe.active ∧ (step blake3 w op).db.gen = w.db.gen := by
  have hrun : ∀ (c : Call) (x : Write) (db : CommutativeLog → DonaDbX),
      (c.record w.db.dbe.active.writeOffset).value.length < 2 ^ 32 →
      (∀ log, (db log).dbe.active = log ∧ (db log).gen = w.db.gen) →
      Appends w.db.dbe.active (w.note ((c.run w.db.dbe.active).1, db (c.run w.db.dbe.active).2) x).db.dbe.active ∧
        (w.note ((c.run w.db.dbe.active).1, db (c.run w.db.dbe.active).2) x).db.gen = w.db.gen := by
    intro c x db hvalue hdb
    cases hc : c.run w.db.dbe.active with
    | mk res log =>
      obtain ⟨hlog, hgen⟩ := hdb log
      rcases appends_run hc hvalue with ⟨rfl, rfl⟩ | ⟨rfl, r, hext⟩
      · exact ⟨.inl hlog, hgen⟩
      · refine ⟨.inr ⟨r, ?_⟩, hgen⟩
        dsimp only [World.note]
        rw [hlog]
        exact hext
  cases op with
  | put key value =>
    exact hrun (.put key value 0 w.db.currentHeight) ⟨key, some value⟩
      (fun log => { w.db with dbe := { w.db.dbe with active := log } }) hshort fun log => ⟨rfl, rfl⟩
  | delete key =>
    exact hrun (.delete key 0 w.db.currentHeight) ⟨key, none⟩
      (fun log => { w.db with dbe := { w.db.dbe with active := log, vcache := w.db.dbe.vcache.remove key } })
      (by simp [Call.record]) fun log => ⟨rfl, rfl⟩
  | writerPut shardId key value =>
    cases hi : shardId % (w.db.dbe.rest.length + 1) with
    | zero =>
      rw [step_writerPut hi]
      exact hrun (.put key value 0 w.db.currentHeight) ⟨key, some value⟩
        (fun log => { w.db with dbe := { w.db.dbe with active := log } }) hshort fun log => ⟨rfl, rfl⟩
    | succ i =>
      -- the log of another shard
      unfold step DonaDbX.writerPut
      dsimp only
      rw [hi]
      cases w.db.dbe.log (i + 1) with
      | none => exact ⟨.inl rfl, rfl⟩
      | some log =>
        dsimp only
        cases log.putVersioned key value 0 w.db.currentHeight with
        | mk res log' => cases res <;> exact ⟨.inl rfl, rfl⟩
  | get key =>
    obtain ⟨c, -, hc⟩ := snd_get w.db key
    unfold step
    dsimp only
    rw [hc]
    exact ⟨.inl rfl, rfl⟩
  | commit height s => exact absurd rfl (hop height s)

/-- **A call keeps the frame's own behind its start.** -/
theorem Spans.step (blake3 : Bytes → Bytes32) (h : Spans f done pend) {op : FrameOp} (hop : op.Short) :
    ∃ done' pend', Spans (frameStep blake3 f op) done' pend' := by
  cases op with
  | framePut key value =>
    unfold frameStep ExecutionFrame.put DonaDbX.put
    cases hrun : f.world.db.dbe.active.putVersioned key value 0 f.world.db.currentHeight with
    | mk res log =>
      dsimp only
      rw [hrun]
      dsimp only
      rcases appends_run (c := .put key value 0 f.world.db.currentHeight) hrun hop with
        ⟨rfl, rfl⟩ | ⟨rfl, r, hext, hroom⟩
      · exact ⟨done, pend, h.congr rfl rfl rfl rfl⟩
      · refine ⟨done, pend ++ [r], h.appended hext hroom rfl rfl (.inr ?_)⟩
        rw [offset_of_extends hext]
  | other op =>
    by_cases hcommit : ∃ height s, op = .commit height s
    · obtain ⟨height, s, rfl⟩ := hcommit
      obtain ⟨done', h'⟩ := h.commit blake3 height s
      exact ⟨done', [], h'⟩
    · push Not at hcommit
      obtain ⟨happ, hgen⟩ := appends_step blake3 f.world hcommit hop
      obtain ⟨pend', h'⟩ := h.appends happ hgen
      rw [frameStep_other hcommit]
      exact ⟨done, pend', h'⟩

theorem spans_openFrame (h : Holds w.db.dbe.active done pend) : Spans (openFrame w) done pend :=
  ⟨h, fun _ hoff => (nomatch hoff), le_rfl, fun _ =>
    ⟨le_rfl, fun _ hoff => (nomatch hoff), fun _ => ⟨pend, [], (List.append_nil pend).symm, h.pend, rfl⟩⟩⟩

theorem spans_run (h : Spans f done pend) {ops : List FrameOp} (hops : ∀ op ∈ ops, op.Short) :
    ∃ done' pend', Spans (run (frameStep blake3) f ops) done' pend' := by
  induction ops generalizing f done pend with
  | nil => exact ⟨done, pend, h⟩
  | cons op ops ih =>
    obtain ⟨hop, hops⟩ := List.forall_mem_cons.mp hops
    obtain ⟨done', pend', h'⟩ := h.step blake3 hop
    exact ih h' hops

theorem run_other (blake3 : Bytes → Bytes32) (f : Framed) (ops : List Op) :
    (run (frameStep blake3) f (ops.map .other)).world = run (step blake3) f.world ops := by
  induction ops generalizing f with
  | nil => rfl
  | cons op ops ih =>
    rw [List.map_cons, run_cons, run_cons, ih]
    cases op <;> rfl

/-- The active log of every reachable database consists of records. -/
theorem holds_run (blake3 : Bytes → Bytes32) (cfg : Config) (n : ℕ) {ops : List Op}
    (hops : ∀ op ∈ ops, Short op) :
    ∃ done pend, Holds (run (step blake3) (start blake3 cfg n) ops).db.dbe.active done pend := by
  have hshort : ∀ op ∈ ops.map FrameOp.other, op.Short := List.forall_mem_map.mpr hops
  obtain ⟨done, pend, h⟩ := spans_run (spans_openFrame (tracks_start blake3 cfg n).holds) hshort
  refine ⟨done, pend, ?_⟩
  have hholds := h.holds
  rw [run_other] at hholds
  exact hholds

/-! ## The abort -/

theorem abort_rotated (h : f.world.db.gen ≠ f.frame.logId) : f.frame.abort f.world.db = f.world.db := if_pos h

theorem abort_same (h : f.world.db.gen = f.frame.logId) :
    ∃ mmap, f.frame.abort f.world.db = { f.world.db with dbe := { f.world.db.dbe with
        active := { f.world.db.dbe.active with mmap, writeOffset := f.frame.start } } } ∧
      Agree f.world.db.dbe.active.mmap mmap 0 f.frame.start := by
  unfold ExecutionFrame.abort
  rw [if_neg (not_not.mpr h)]
  refine ⟨_, rfl, ?_⟩
  split
  · exact (agree_write_below le_rfl).symm
  · exact .refl _ _ _

/-- A frame that has written nothing has nothing to be taken away. -/
theorem filter_own_eq (h : Spans f done pend) :
    (pend.filter fun r => r.offset ∉ f.own) = pend ↔ f.own = [] := by
  rw [List.filter_eq_self]
  constructor
  · intro hall
    rw [List.eq_nil_iff_forall_not_mem]
    intro off hoff
    obtain ⟨r, hr, rfl⟩ := h.own off hoff
    exact absurd hoff (by simpa using hall r hr)
  · intro hnil r _
    simp [hnil]

/-- **Aborting takes away the frame's own uncommitted writes and nothing else iff the frame is alone**
behind its start. -/
theorem clean_iff (h : Spans f done pend) : Clean f (f.frame.abort f.world.db) ↔ Alone f := by
  have hpend : unfolded f.world.db.dbe.active = pend := records_of_lays h.holds.pend
  have hdone : records f.world.db.dbe.active.mmap 8 f.world.db.dbe.active.committedOffset = done :=
    records_of_lays h.holds.done
  unfold Alone
  by_cases hgen : f.world.db.gen = f.frame.logId
  · rw [if_pos hgen, hpend]
    obtain ⟨mmap, habort, hagree⟩ := abort_same hgen
    obtain ⟨hstart, hbehind, hsplit⟩ := h.behind hgen
    -- what is left, once no record is committed behind the start
    have hleft : ∀ before since, pend = before ++ since →
        Lays f.world.db.dbe.active.mmap f.world.db.dbe.active.committedOffset before f.frame.start →
        Lays f.world.db.dbe.active.mmap f.frame.start since f.world.db.dbe.active.writeOffset →
        unfolded (f.frame.abort f.world.db).dbe.active = before ∧
        ((before = pend.filter fun r => r.offset ∉ f.own) ↔
          ∀ r ∈ pend, f.frame.start ≤ r.offset → r.offset ∈ f.own) := by
      rintro before since rfl hbefore hsince
      refine ⟨?_, ?_⟩
      · rw [habort]
        exact records_of_lays (hbefore.congr (hagree.mono (Nat.zero_le _) le_rfl))
      · have hfront : ∀ r ∈ before, r.offset < f.frame.start := by
          intro r hr
          have hin := (hbefore.decode hr).2.2
          have hpos := r.total_pos
          omega
        have hkeep : (before.filter fun r => r.offset ∉ f.own) = before := by
          rw [List.filter_eq_self]
          intro r hr
          have hlt := hfront r hr
          have hnot : r.offset ∉ f.own := fun hin => absurd (hbehind r.offset hin) (by omega)
          simpa using hnot
        rw [List.filter_append, hkeep, List.self_eq_append_right, List.filter_eq_nil_iff]
        constructor
        · intro hall r hr hle
          rcases List.mem_append.mp hr with hr | hr
          · exact absurd hle (by have := hfront r hr; omega)
          · simpa using hall r hr
        · intro hall r hr
          have hin := hall r (List.mem_append_right _ hr) (hsince.decode hr).2.1
          simpa using hin
    constructor
    · intro hclean
      have hfrontier := hclean.frontier
      rw [habort] at hfrontier
      obtain ⟨before, since, hsplit, hbefore, hsince⟩ := hsplit hfrontier
      obtain ⟨hunfolded, hiff⟩ := hleft before since hsplit hbefore hsince
      have hpending := hclean.pending
      rw [hunfolded, hpend] at hpending
      exact ⟨hfrontier, hiff.mp hpending⟩
    · rintro ⟨hfrontier, hall⟩
      obtain ⟨before, since, hsplit, hbefore, hsince⟩ := hsplit hfrontier
      obtain ⟨hunfolded, hiff⟩ := hleft before since hsplit hbefore hsince
      refine ⟨?_, ?_, ?_, ?_⟩
      · rw [habort]
        exact hfrontier
      · rw [hdone, habort]
        intro r hr
        exact ((h.holds.done.congr (hagree.mono (Nat.zero_le _) hfrontier)).decode hr).1
      · rw [hunfolded, hpend]
        exact hiff.mpr hall
      · rw [habort]
  · rw [if_neg hgen, abort_rotated hgen]
    constructor
    · intro hclean
      have hpending := hclean.pending
      rw [hpend] at hpending
      exact (filter_own_eq h).mp hpending.symm
    · intro hnone
      refine ⟨h.holds.pend.le, ?_, ?_, rfl⟩
      · rw [hdone]
        exact fun r hr => (h.holds.done.decode hr).1
      · rw [hpend]
        exact ((filter_own_eq h).mpr hnone).symm

/-- **When a frame can be aborted**: after every history with a frame opened on the way, exactly if it is
alone behind its start. -/
theorem abort_clean_iff (blake3 : Bytes → Bytes32) (cfg : Config) (n : ℕ) (ops : List Op)
    (hops : ∀ op ∈ ops, Short op) (since : List FrameOp) (hsince : ∀ op ∈ since, op.Short) :
    Clean (run (frameStep blake3) (openFrame (run (step blake3) (start blake3 cfg n) ops)) since)
      ((run (frameStep blake3) (openFrame (run (step blake3) (start blake3 cfg n) ops)) since).frame.abort
        (run (frameStep blake3) (openFrame (run (step blake3) (start blake3 cfg n) ops)) since).world.db) ↔
    Alone (run (frameStep blake3) (openFrame (run (step blake3) (start blake3 cfg n) ops)) since) := by
  obtain ⟨done, pend, hholds⟩ := holds_run blake3 cfg n hops
  obtain ⟨done', pend', h⟩ := spans_run (spans_openFrame hholds) hsince
  exact clean_iff h

/-- A write that is not committed yet, and a frame that writes the same key and another. -/
def frameWrites : List FrameOp := [.framePut 1 [8], .other (.get 1), .framePut 2 [9]]

theorem frameWrites_aborted :
    Clean (run (frameStep sampleHash)
      (openFrame (run (step sampleHash) (start sampleHash smallConfig 1) [.put 1 [7]]))
        frameWrites)
      ((run (frameStep sampleHash)
        (openFrame (run (step sampleHash) (start sampleHash smallConfig 1) [.put 1 [7]]))
        frameWrites).frame.abort
        (run (frameStep sampleHash)
          (openFrame (run (step sampleHash) (start sampleHash smallConfig 1) [.put 1 [7]]))
          frameWrites).world.db) :=
  (abort_clean_iff sampleHash smallConfig 1 [.put 1 [7]] (by simp [Short]) frameWrites
    (by simp [frameWrites, FrameOp.Short, Short])).mpr (by decide +kernel)

/-- An abort after another writer's commit takes the committed record away. -/
theorem abort_below_committed : ¬ ∀ (blake3 : Bytes → Bytes32) (cfg : Config) (n : ℕ) (ops : List Op)
    (since : List FrameOp),
    Clean (run (frameStep blake3) (openFrame (run (step blake3) (start blake3 cfg n) ops)) since)
      ((run (frameStep blake3) (openFrame (run (step blake3) (start blake3 cfg n) ops)) since).frame.abort
        (run (frameStep blake3) (openFrame (run (step blake3) (start blake3 cfg n) ops)) since).world.db) := by
  intro h
  have hfrontier := (h sampleHash smallConfig 0 [] [.other (.put 1 [7]), .other (.commit 1 ⟨id, 0⟩)]).frontier
  revert hfrontier
  decide +kernel

end TruthLinked.DonaDb.Frames
