import TruthLinked.DonaDb.Block
import TruthLinked.DonaDb.Engine
import TruthLinked.Lib.Run

/-! # Commits that do not wait for their folds

`DualBufferEngine::swap` takes the accumulator when a commit is called and puts a request in a channel of
two; the fold thread works off one request after another and stores the accumulator that comes out. Here
the two threads take their steps in any order. The outcome is that of the calls with a wait after every
commit (`drained_eq_waited`) if no commit is called while a request with records is outstanding; otherwise
the later request starts from an accumulator that lacks the earlier block.

A log that was rotated away keeps its place in `retired` under the generation that its requests carry. The
value cache has no part in the accumulator and is left out. -/

namespace TruthLinked.DonaDb.Queue

open Core.Types Core.Bytes Lib.Memory Lib.Run Lib.SortKey DonaDb.Log DonaDb.Fold DonaDb.Cache DonaDb.Block
open DonaDb.Engine

/-! ## The two threads -/

/-- The engine, the logs rotated away, and the configuration. -/
structure Store where
  engine : DualBufferEngine
  retired : List CommutativeLog
  cfg : Config

/-- A request, with the turns that its shards take when it is folded. -/
structure Ticket where
  req : FoldReq
  turn : ℕ → ℕ

/-- A write to a shard of the engine. -/
def writeShard (i : ℕ) (call : Call) (e : DualBufferEngine) : DualBufferEngine :=
  match e.log i with
  | some log => e.setLog (call.run log).2 i
  | none => e

/-- A write to a shard of the store. -/
def Store.writeAt (s : Store) (i : ℕ) (call : Call) : Store := { s with engine := writeShard i call s.engine }

/-- `put`, `delete` and the puts of a `BlockWriter`. -/
def Store.write (s : Store) (shardId : ℕ) (call : Call) : Store :=
  s.writeAt (shardId % (s.engine.rest.length + 1)) call

/-- `swap`, called by `commit`: the generation counts the rotations. -/
def Store.request (s : Store) (turn : ℕ → ℕ) : Ticket := ⟨s.engine.swap s.retired.length, turn⟩

/-- The engine with another log of shard 0. -/
def withActive (e : DualBufferEngine) (log : CommutativeLog) : DualBufferEngine := { e with active := log }

/-- The engine as a request of generation `gen` sees it. -/
def Store.engineOf (s : Store) (gen : ℕ) : DualBufferEngine :=
  withActive s.engine ((s.retired[gen]?).getD s.engine.active)

/-- The engine back in its place. -/
def Store.restore (s : Store) (gen : ℕ) (e : DualBufferEngine) : Store :=
  if gen < s.retired.length then
    { s with engine := withActive e s.engine.active, retired := s.retired.set gen e.active }
  else { s with engine := e }

/-- The fold of a request. -/
def Store.settle (blake3 : Bytes → Bytes32) (s : Store) (t : Ticket) : Store :=
  s.restore t.req.logId (foldRequest blake3 (sortByKey t.turn (List.range (s.engine.rest.length + 1)))
    t.req (s.engineOf t.req.logId)).1

/-- The end of `commit`: rotation above the threshold. -/
def Store.rotate (s : Store) : Store :=
  if s.cfg.crosses s.engine.active.writeOffset then
    { s with
      engine := withActive s.engine (.open (fun _ => 0) s.cfg.bufferSize)
      retired := s.retired ++ [s.engine.active] }
  else s

/-- The calls of the thread that writes and commits. -/
inductive Done where
  | write (shardId : ℕ) (call : Call)
  | commit (turn : ℕ → ℕ)

/-- A call with a wait for its fold. -/
def waitedStep (blake3 : Bytes → Bytes32) (s : Store) : Done → Store
  | .write shardId call => s.write shardId call
  | .commit turn => (s.settle blake3 (s.request turn)).rotate

/-- An engine on empty logs, with `n` shards beside shard 0. -/
def fresh (cfg : Config) (n : ℕ) : Store :=
  { engine :=
      { active := freshLog cfg.bufferSize, rest := List.replicate n (freshLog cfg.bufferSize), index := ∅,
        merkle := 0, vcache := .engine }
    retired := []
    cfg }

/-- The calls so far, each with a wait for its fold. -/
def waited (blake3 : Bytes → Bytes32) (cfg : Config) (n : ℕ) (calls : List Done) : Store :=
  run (waitedStep blake3) (fresh cfg n) calls

/-- Both threads: the commit that is being sent, the channel, the request in work, and the calls that
have returned. -/
structure Threads where
  store : Store
  sending : Option Ticket
  queue : List Ticket
  working : Option Ticket
  calls : List Done

/-- The steps of the two threads; `swap` takes accumulator and frontiers in `begin`, which the fold
thread cannot tell from two steps as it moves no frontier. -/
inductive Act where
  | write (shardId : ℕ) (call : Call)
  | begin (turn : ℕ → ℕ)
  | send
  | take
  | finish

/-- One step; a thread that has to wait does nothing. -/
def step (blake3 : Bytes → Bytes32) (p : Threads) : Act → Threads
  | .write shardId call =>
    match p.sending with
    | some _ => p
    | none => { p with store := p.store.write shardId call, calls := p.calls ++ [.write shardId call] }
  | .begin turn =>
    match p.sending with
    | some _ => p
    | none => { p with sending := some (p.store.request turn) }
  | .send =>
    match p.sending with
    | none => p
    | some t =>
      if p.queue.length < 2 then
        { p with
          store := p.store.rotate
          sending := none
          queue := p.queue ++ [t]
          calls := p.calls ++ [.commit t.turn] }
      else p
  | .take =>
    match p.working, p.queue with
    | none, t :: queue => { p with working := some t, queue }
    | _, _ => p
  | .finish =>
    match p.working with
    | none => p
    | some t => { p with store := p.store.settle blake3 t, working := none }

/-- Both threads before the first call. -/
def start (cfg : Config) (n : ℕ) : Threads := ⟨fresh cfg n, none, [], none, []⟩

/-- The requests that are not folded yet. -/
def Threads.outstanding (p : Threads) : List Ticket := p.working.toList ++ p.queue

/-- Nothing is outstanding. -/
def Drained (p : Threads) : Prop := p.sending = none ∧ p.outstanding = []

/-- The request reaches no further than what is folded. -/
def Empty (s : Store) (t : Ticket) : Prop :=
  ∀ i log endOff, (s.engineOf t.req.logId).log i = some log → t.req.ends[i]? = some endOff →
    endOff ≤ log.committedOffset

/-- **A commit is called when no request with records is outstanding.** -/
def Settled (p : Threads) : Act → Prop
  | .begin _ => ∀ t ∈ p.outstanding, Empty p.store t
  | _ => True

/-! ## A write behind a fold -/

section
variable {blake3 : Bytes → Bytes32} {log : CommutativeLog} {index : ShardIndex} {acc : Bytes32}
  {endOff logId : ℕ}

/-- The log with bytes stored at its frontier, if there is room. -/
def stored (bytes : Bytes) (log : CommutativeLog) : CommutativeLog :=
  if log.capacity < log.writeOffset + bytes.length then log
  else { log with
    writeOffset := log.writeOffset + bytes.length
    mmap := write log.mmap log.writeOffset bytes }

theorem run_eq (call : Call) : ∃ bytes, ∀ log, (call.run log).2 = stored bytes log := by
  cases call with
  | put key value prevOff height =>
    refine ⟨encode cmag prevOff height key value, fun log => ?_⟩
    rw [stored, length_encode, Call.run, CommutativeLog.putVersioned, CommutativeLog.append]
    split <;> rfl
  | delete key prevOff height =>
    refine ⟨encode ctomb prevOff height key [], fun log => ?_⟩
    rw [stored, length_encode, Call.run, CommutativeLog.delVersioned, CommutativeLog.append]
    split <;> rfl

theorem stored_frontier (bytes : Bytes) (log : CommutativeLog) :
    (stored bytes log).committedOffset = log.committedOffset ∧
    (stored bytes log).capacity = log.capacity ∧ log.writeOffset ≤ (stored bytes log).writeOffset := by
  unfold stored
  split
  · exact ⟨rfl, rfl, le_rfl⟩
  · exact ⟨rfl, rfl, Nat.le_add_right _ _⟩

theorem agree_stored (bytes : Bytes) (log : CommutativeLog) {a b : ℕ} (h : b ≤ log.writeOffset) :
    Agree (stored bytes log).mmap log.mmap a b := by
  unfold stored
  split
  · exact .refl _ _ _
  · exact agree_write_below h

theorem patches_write {l : List (Bytes32 × Bytes32 × ℕ)} {m : ℕ → UInt8} {off : ℕ} {bytes : Bytes}
    (hl : ∀ p ∈ l, p.2.2 + 16 ≤ off) :
    l.foldl (patch index) (write m off bytes) = write (l.foldl (patch index) m) off bytes := by
  induction l generalizing m with
  | nil => rfl
  | cons p l ih =>
    obtain ⟨hp, hrest⟩ := List.forall_mem_cons.mp hl
    have hlen : (leBytes 8 (oldOffset index p.1)).length = 8 := length_leBytes 8 _
    have hone : patch index (write m off bytes) p = write (patch index m p) off bytes := by
      unfold patch
      split
      · exact (write_comm (by omega)).symm
      · rfl
    rw [List.foldl_cons, List.foldl_cons, hone, ih hrest]

/-- **A fold does not meet what is stored behind it.** -/
theorem commitFoldUntil_stored (blake3 : Bytes → Bytes32) (index : ShardIndex) (acc : Bytes32) (logId : ℕ)
    (bytes : Bytes) (hend : endOff ≤ log.writeOffset) (hstart : 8 ≤ log.writeOffset) :
    commitFoldUntil blake3 (stored bytes log) index acc endOff logId =
      { commitFoldUntil blake3 log index acc endOff logId with
        log := stored bytes (commitFoldUntil blake3 log index acc endOff logId).log } := by
  obtain ⟨hcommitted, -, -⟩ := stored_frontier bytes log
  have hrecords : records (stored bytes log).mmap log.committedOffset endOff =
      records log.mmap log.committedOffset endOff := records_congr (agree_stored bytes log hend)
  unfold commitFoldUntil
  rw [hcommitted]
  split
  · rfl
  · dsimp only
    rw [hrecords]
    congr 1
    have hinside : ∀ p ∈ (latest blake3 (records log.mmap log.committedOffset endOff)).toList,
        p.2.2 + 16 ≤ log.writeOffset := by
      intro p hp
      obtain ⟨c, -, hlays⟩ := lays_records log.mmap log.committedOffset endOff
      obtain ⟨r, hr, hpr⟩ := mem_latest (ascending_of_lays hlays) hp
      have hle := (records_inside (lastPut_mem hr).1).2
      rw [hpr]
      unfold Record.total chdr at hle
      dsimp only
      omega
    have hheader : (leBytes 8 endOff).length = 8 := length_leBytes 8 _
    unfold stored
    dsimp only
    split
    · rfl
    · rw [patches_write hinside, ← write_comm (a := 0) (by omega)]

end

/-! ## A write behind a request -/

section
variable {blake3 : Bytes → Bytes32} {e : DualBufferEngine} {req : FoldReq}

/-- The request ends at or below the frontiers of the logs. -/
def Ahead (req : FoldReq) (e : DualBufferEngine) : Prop :=
  ∀ i off endOff, frontier e i = some off → req.ends[i]? = some endOff → endOff ≤ off ∧ 8 ≤ off

/-- **A shard's part of a request does not meet a write behind it.** -/
theorem foldShard_write (h : Ahead req e) (i j : ℕ) (call : Call) :
    foldShard blake3 req (writeShard i call e) j =
      (writeShard i call (foldShard blake3 req e j).1, (foldShard blake3 req e j).2) := by
  obtain ⟨bytes, hrun⟩ := run_eq call
  cases hi : e.log i with
  | none =>
    have hnone : (foldShard blake3 req e j).1.log i = none := by
      have hsame : frontier (foldShard blake3 req e j).1 i = frontier e i := frontier_foldShard i j
      unfold Engine.frontier at hsame
      rw [hi] at hsame
      exact Option.map_eq_none_iff.mp hsame
    unfold writeShard
    rw [hi, hnone]
  | some log =>
    have hwrite : writeShard i call e = e.setLog (stored bytes log) i := by
      unfold writeShard
      rw [hi]
      exact congrArg (e.setLog · i) (hrun log)
    rw [hwrite]
    cases hend : req.ends[j]? with
    | none => rw [foldShard_skip (.inr hend), foldShard_skip (.inr hend), hwrite]
    | some endOff =>
      by_cases hij : i = j
      · subst hij
        obtain ⟨hle, hstart⟩ := h i log.writeOffset endOff (by rw [Engine.frontier, hi, Option.map_some]) hend
        obtain ⟨hcommitted, hcapacity, -⟩ := stored_frontier bytes log
        obtain ⟨hfrontier, -⟩ := commitFoldUntil_frontier blake3 log e.index req.acc endOff req.logId
        have hfold := commitFoldUntil_stored blake3 e.index req.acc req.logId bytes hle hstart
        have hrecords : records (stored bytes
              (commitFoldUntil blake3 log e.index req.acc endOff req.logId).log).mmap log.committedOffset
              (min endOff log.capacity) =
            records (commitFoldUntil blake3 log e.index req.acc endOff req.logId).log.mmap
              log.committedOffset (min endOff log.capacity) :=
          records_congr (agree_stored _ _ (by omega))
        rw [foldShard_eq (log_setLog_self hi _) hend, foldShard_eq hi hend, index_setLog, hfold, hcommitted,
          hcapacity, hrecords, setLog_setLog]
        unfold writeShard
        dsimp only
        rw [log_withIndex, log_setLog_self hi]
        dsimp only
        rw [hrun, setLog_withIndex, setLog_setLog]
      · cases hj : e.log j with
        | none =>
          have hj' : (e.setLog (stored bytes log) i).log j = none := by rw [log_setLog_ne hij, hj]
          rw [foldShard_skip (.inl hj'), foldShard_skip (.inl hj), hwrite]
        | some log' =>
          have hj' : (e.setLog (stored bytes log) i).log j = some log' := by rw [log_setLog_ne hij, hj]
          rw [foldShard_eq hj' hend, foldShard_eq hj hend, index_setLog, setLog_comm hij]
          unfold writeShard
          dsimp only
          rw [log_withIndex, log_setLog_ne (Ne.symm hij), hi]
          dsimp only
          rw [hrun, setLog_withIndex]

theorem Ahead.foldShard (h : Ahead req e) (j : ℕ) : Ahead req (foldShard blake3 req e j).1 := by
  intro i off endOff hoff hend
  rw [frontier_foldShard] at hoff
  exact h i off endOff hoff hend

theorem foldShards_write (order : List ℕ) (h : Ahead req e) (i : ℕ) (call : Call) :
    foldShards blake3 req order (writeShard i call e) =
      (writeShard i call (foldShards blake3 req order e).1, (foldShards blake3 req order e).2) := by
  induction order generalizing e with
  | nil => rfl
  | cons j order ih =>
    rw [foldShards, foldShard_write h]
    dsimp only
    rw [ih (h.foldShard j)]
    rfl

/-- The engine with another accumulator. -/
def withMerkle (e : DualBufferEngine) (merkle : Bytes32) : DualBufferEngine := { e with merkle }

theorem writeShard_withMerkle (i : ℕ) (call : Call) (e : DualBufferEngine) (merkle : Bytes32) :
    writeShard i call (withMerkle e merkle) = withMerkle (writeShard i call e) merkle := by
  cases i with
  | zero => rfl
  | succ i =>
    unfold writeShard
    change (match e.rest[i]? with
      | some log => (withMerkle e merkle).setLog (call.run log).2 (i + 1)
      | none => withMerkle e merkle) = withMerkle (match e.rest[i]? with
      | some log => e.setLog (call.run log).2 (i + 1)
      | none => e) merkle
    cases e.rest[i]? <;> rfl

/-- **A request does not meet a write behind it.** -/
theorem foldRequest_write (order : List ℕ) (h : Ahead req e) (i : ℕ) (call : Call) :
    (foldRequest blake3 order req (writeShard i call e)).1 =
      writeShard i call (foldRequest blake3 order req e).1 := by
  have hfold : ∀ e, (foldRequest blake3 order req e).1 = withMerkle (foldShards blake3 req order e).1
    ((foldShards blake3 req order e).2.1 0) := fun _ => rfl
  rw [hfold, hfold, foldShards_write order h, writeShard_withMerkle]

theorem frontier_foldRequest (order : List ℕ) (e : DualBufferEngine) (i : ℕ) :
    frontier (foldRequest blake3 order req e).1 i = frontier e i := by
  have hshards : ∀ e, frontier (foldShards blake3 req order e).1 i = frontier e i := by
    induction order with
    | nil => exact fun _ => rfl
    | cons j order ih =>
      intro e
      exact (ih (foldShard blake3 req e j).1).trans (frontier_foldShard i j)
  have hmerkle : frontier (foldRequest blake3 order req e).1 i =
      frontier (foldShards blake3 req order e).1 i := by
    cases i <;> rfl
  rw [hmerkle, hshards]

/-- A request without records stores its accumulator and does nothing else. -/
theorem foldRequest_empty (order : List ℕ)
    (h : ∀ i log endOff, e.log i = some log → req.ends[i]? = some endOff → endOff ≤ log.committedOffset) :
    (foldRequest blake3 order req e).1 = withMerkle e req.acc := by
  have hone : ∀ j, ∃ rs, foldShard blake3 req e j = (e, req.acc, rs) := by
    intro j
    cases hlog : e.log j with
    | none => exact ⟨[], foldShard_skip (.inl hlog)⟩
    | some log =>
      cases hend : req.ends[j]? with
      | none => exact ⟨[], foldShard_skip (.inr hend)⟩
      | some endOff =>
        have hfold : commitFoldUntil blake3 log e.index req.acc endOff req.logId = ⟨log, e.index, req.acc⟩ :=
          if_pos (h j log endOff hlog hend)
        have hset : withIndex (e.setLog log j) e.index = e := by
          cases j with
          | zero =>
            obtain rfl : e.active = log := Option.some.inj hlog
            rfl
          | succ j =>
            obtain ⟨hj, rfl⟩ := List.getElem?_eq_some_iff.mp hlog
            unfold withIndex DualBufferEngine.setLog
            dsimp only
            rw [List.set_getElem_self]
        rw [foldShard_eq hlog hend, hfold]
        dsimp only
        rw [hset]
        exact ⟨_, rfl⟩
  have hshards : ∃ rs, foldShards blake3 req order e = (e, fun _ => req.acc, rs) := by
    induction order with
    | nil => exact ⟨[], rfl⟩
    | cons j order ih =>
      obtain ⟨rs, hrs⟩ := hone j
      obtain ⟨rs', hrs'⟩ := ih
      rw [foldShards, hrs]
      dsimp only
      rw [hrs']
      dsimp only
      rw [Function.update_eq_self]
      exact ⟨_, rfl⟩
  obtain ⟨rs, hrs⟩ := hshards
  unfold foldRequest
  rw [hrs]
  rfl

end

/-! ## The store -/

section
variable {blake3 : Bytes → Bytes32} {s : Store} {t : Ticket}

theorem length_rest_of_frontier {e e' : DualBufferEngine} (h : ∀ i, frontier e i = frontier e' i) :
    e.rest.length = e'.rest.length := by
  have hrest : e.rest.map CommutativeLog.writeOffset = e'.rest.map CommutativeLog.writeOffset := by
    refine List.ext_getElem? fun i => ?_
    rw [List.getElem?_map, List.getElem?_map]
    exact h (i + 1)
  have hlength := congrArg List.length hrest
  rwa [List.length_map, List.length_map] at hlength

theorem length_rest_writeShard (i : ℕ) (call : Call) (e : DualBufferEngine) :
    (writeShard i call e).rest.length = e.rest.length := by
  unfold writeShard
  cases e.log i with
  | none => rfl
  | some log =>
    cases i with
    | zero => rfl
    | succ i => exact List.length_set

theorem engineOf_current (s : Store) {gen : ℕ} (h : s.retired.length ≤ gen) : s.engineOf gen = s.engine := by
  unfold Store.engineOf
  rw [List.getElem?_eq_none h]
  rfl

/-- The engine of a request after its fold. -/
def Store.foldedEngine (blake3 : Bytes → Bytes32) (s : Store) (t : Ticket) : DualBufferEngine :=
  (foldRequest blake3 (sortByKey t.turn (List.range (s.engine.rest.length + 1))) t.req
    (s.engineOf t.req.logId)).1

theorem length_rest_foldedEngine (blake3 : Bytes → Bytes32) (s : Store) (t : Ticket) :
    (s.foldedEngine blake3 t).rest.length = s.engine.rest.length :=
  @length_rest_of_frontier _ (s.engineOf t.req.logId) fun i => frontier_foldRequest _ _ i

theorem settle_eq (blake3 : Bytes → Bytes32) (s : Store) (t : Ticket) :
    s.settle blake3 t = s.restore t.req.logId (s.foldedEngine blake3 t) := rfl

theorem length_rest_settle (blake3 : Bytes → Bytes32) (s : Store) (t : Ticket) :
    (s.settle blake3 t).engine.rest.length = s.engine.rest.length := by
  rw [settle_eq, ← length_rest_foldedEngine blake3 s t]
  unfold Store.restore
  split <;> rfl

theorem foldedEngine_write (h : Ahead t.req (s.engineOf t.req.logId)) {s' : Store} {k : ℕ} {call : Call}
    (hengine : s'.engineOf t.req.logId = writeShard k call (s.engineOf t.req.logId))
    (hlength : s'.engine.rest.length = s.engine.rest.length) :
    s'.foldedEngine blake3 t = writeShard k call (s.foldedEngine blake3 t) := by
  unfold Store.foldedEngine
  rw [hengine, hlength, foldRequest_write _ h]

/-- **A settled request does not meet a later write.** -/
theorem settle_writeAt (h : Ahead t.req (s.engineOf t.req.logId)) (i : ℕ) (call : Call) :
    (s.writeAt i call).settle blake3 t = (s.settle blake3 t).writeAt i call := by
  have hlength : (s.writeAt i call).engine.rest.length = s.engine.rest.length :=
    length_rest_writeShard _ call s.engine
  rw [settle_eq, settle_eq]
  rcases Nat.lt_or_ge t.req.logId s.retired.length with hlt | hge
  · have hrestore : ∀ s' : Store, s'.retired = s.retired → ∀ e, s'.restore t.req.logId e =
        { s' with
          engine := withActive e s'.engine.active
          retired := s'.retired.set t.req.logId e.active } := by
      intro s' hs' e
      unfold Store.restore
      rw [hs', if_pos hlt]
    rw [hrestore s rfl, hrestore (s.writeAt i call) rfl]
    cases i with
    | zero =>
      -- the write goes to the log that took the place of the request's
      have hengine : (s.writeAt 0 call).engineOf t.req.logId = s.engineOf t.req.logId := by
        unfold Store.engineOf Store.writeAt writeShard DualBufferEngine.log DualBufferEngine.setLog
        dsimp only
        rw [List.getElem?_eq_getElem hlt]
        rfl
      have hfolded : (s.writeAt 0 call).foldedEngine blake3 t = s.foldedEngine blake3 t := by
        unfold Store.foldedEngine
        rw [hengine, hlength]
      rw [hfolded]
      rfl
    | succ i =>
      have hactive : ∀ e log, writeShard (i + 1) call (withActive e log) =
          withActive (writeShard (i + 1) call e) log := by
        intro e log
        have hlog : (withActive e log).log (i + 1) = e.log (i + 1) := rfl
        unfold writeShard
        rw [hlog]
        cases e.log (i + 1) <;> rfl
      have hsame : ∀ e, (writeShard (i + 1) call e).active = e.active := by
        intro e
        unfold writeShard
        cases e.log (i + 1) <;> rfl
      have hengine : (s.writeAt (i + 1) call).engineOf t.req.logId =
          writeShard (i + 1) call (s.engineOf t.req.logId) := by
        unfold Store.engineOf Store.writeAt
        dsimp only
        rw [hactive, hsame]
      rw [foldedEngine_write h hengine hlength]
      unfold Store.writeAt
      dsimp only
      rw [hactive, hsame, hsame]
  · have hengine : (s.writeAt i call).engineOf t.req.logId =
        writeShard i call (s.engineOf t.req.logId) := by
      rw [engineOf_current s hge]
      exact engineOf_current (s.writeAt i call) hge
    have hrestore : ∀ s' : Store, s'.retired = s.retired → ∀ e,
        s'.restore t.req.logId e = { s' with engine := e } := by
      intro s' hs' e
      unfold Store.restore
      rw [hs', if_neg (by omega)]
    rw [foldedEngine_write h hengine hlength, hrestore s rfl, hrestore (s.writeAt i call) rfl]
    rfl

/-- A request without records and with the current accumulator changes nothing. -/
theorem settle_empty (h : Empty s t) (hacc : t.req.acc = s.engine.merkle) : s.settle blake3 t = s := by
  have hfolded : s.foldedEngine blake3 t = s.engineOf t.req.logId := by
    unfold Store.foldedEngine
    rw [foldRequest_empty _ h, hacc]
    rfl
  rw [settle_eq, hfolded]
  unfold Store.restore
  split
  case isTrue hlt =>
    unfold Store.engineOf
    rw [List.getElem?_eq_getElem hlt, Option.getD_some]
    unfold withActive
    dsimp only
    rw [List.set_getElem_self]
  case isFalse hge => rw [engineOf_current s (by omega)]

theorem engineOf_rotate {gen : ℕ} (h : gen ≤ s.retired.length) : s.rotate.engineOf gen = s.engineOf gen := by
  unfold Store.rotate
  split
  · rcases Nat.lt_or_ge gen s.retired.length with hlt | hge
    · unfold Store.engineOf withActive
      dsimp only
      rw [List.getElem?_append_left hlt, List.getElem?_eq_getElem hlt]
      rfl
    · obtain rfl : gen = s.retired.length := by omega
      rw [engineOf_current s hge]
      unfold Store.engineOf withActive
      dsimp only
      rw [List.getElem?_concat_length]
      rfl
  · rfl

/-- **The fold of the last request and the rotation after it** can be exchanged. -/
theorem settle_rotate (h : t.req.logId = s.retired.length) :
    s.rotate.settle blake3 t = (s.settle blake3 t).rotate := by
  have hlength : s.rotate.engine.rest.length = s.engine.rest.length := by
    unfold Store.rotate
    split <;> rfl
  have hfolded : s.rotate.foldedEngine blake3 t = s.foldedEngine blake3 t := by
    unfold Store.foldedEngine
    rw [engineOf_rotate h.le, hlength]
  have hfrontier : (s.foldedEngine blake3 t).active.writeOffset = s.engine.active.writeOffset := by
    have hsame : frontier (s.foldedEngine blake3 t) 0 = frontier (s.engineOf t.req.logId) 0 :=
      frontier_foldRequest _ _ 0
    rw [engineOf_current s h.ge] at hsame
    exact Option.some.inj hsame
  have hsettle : s.settle blake3 t = { s with engine := s.foldedEngine blake3 t } := by
    rw [settle_eq, Store.restore, if_neg (by omega)]
  rw [hsettle, settle_eq, hfolded]
  unfold Store.rotate
  dsimp only
  rw [hfrontier]
  split
  · unfold Store.restore
    dsimp only
    rw [h, if_pos (by simp), List.set_append_right _ _ le_rfl, Nat.sub_self, List.set_cons_zero]
    rfl
  · unfold Store.restore
    rw [if_neg (by omega)]

theorem log_writeShard {e : DualBufferEngine} {i j : ℕ} {call : Call} {log' : CommutativeLog}
    (h : (writeShard i call e).log j = some log') : ∃ log, e.log j = some log ∧
      log'.committedOffset = log.committedOffset ∧ log.writeOffset ≤ log'.writeOffset := by
  have hsame : e.log j = some log' → ∃ log, e.log j = some log ∧
      log'.committedOffset = log.committedOffset ∧ log.writeOffset ≤ log'.writeOffset :=
    fun h => ⟨log', h, rfl, le_rfl⟩
  unfold writeShard at h
  cases hi : e.log i with
  | none =>
    rw [hi] at h
    exact hsame h
  | some log =>
    rw [hi] at h
    dsimp only at h
    by_cases hij : i = j
    · subst hij
      obtain ⟨bytes, hrun⟩ := run_eq call
      obtain ⟨hcommitted, -, hle⟩ := stored_frontier bytes log
      rw [log_setLog_self hi, hrun] at h
      obtain rfl := Option.some.inj h
      exact ⟨log, hi, hcommitted, hle⟩
    · rw [log_setLog_ne hij] at h
      exact hsame h

theorem log_writeAt {i gen j : ℕ} {call : Call} {log' : CommutativeLog}
    (h : ((s.writeAt i call).engineOf gen).log j = some log') : ∃ log, (s.engineOf gen).log j = some log ∧
      log'.committedOffset = log.committedOffset ∧ log.writeOffset ≤ log'.writeOffset := by
  cases j with
  | succ j =>
    obtain ⟨log, hlog, hrest⟩ := log_writeShard (e := s.engine) (j := j + 1) h
    exact ⟨log, hlog, hrest⟩
  | zero =>
    cases hget : s.retired[gen]? with
    | none =>
      have hle : s.retired.length ≤ gen := List.getElem?_eq_none_iff.mp hget
      rw [engineOf_current (s.writeAt i call) hle] at h
      rw [engineOf_current s hle]
      exact log_writeShard h
    | some old =>
      have hold : ∀ s' : Store, s'.retired = s.retired → (s'.engineOf gen).log 0 = some old := by
        intro s' hs'
        unfold Store.engineOf
        rw [hs', hget]
        rfl
      rw [hold (s.writeAt i call) rfl] at h
      obtain rfl := Option.some.inj h
      exact ⟨old, hold s rfl, rfl, le_rfl⟩

theorem Empty.writeAt (h : Empty s t) (i : ℕ) (call : Call) : Empty (s.writeAt i call) t := by
  intro j log' endOff hlog' hend
  obtain ⟨log, hlog, hcommitted, -⟩ := log_writeAt hlog'
  rw [hcommitted]
  exact h j log endOff hlog hend

theorem Ahead.writeAt (h : Ahead t.req (s.engineOf t.req.logId)) (i : ℕ) (call : Call) :
    Ahead t.req ((s.writeAt i call).engineOf t.req.logId) := by
  intro j off endOff hoff hend
  obtain ⟨log', hlog', rfl⟩ := Option.map_eq_some_iff.mp hoff
  obtain ⟨log, hlog, -, hle⟩ := log_writeAt hlog'
  have hbefore := h j log.writeOffset endOff (by rw [Engine.frontier, hlog, Option.map_some]) hend
  omega

theorem merkle_writeAt (s : Store) (i : ℕ) (call : Call) :
    (s.writeAt i call).engine.merkle = s.engine.merkle := by
  unfold Store.writeAt writeShard
  dsimp only
  cases s.engine.log i with
  | none => rfl
  | some log => cases i <;> rfl

theorem merkle_rotate (s : Store) : s.rotate.engine.merkle = s.engine.merkle := by
  unfold Store.rotate
  split <;> rfl

/-- Every log of the engine is past its header. -/
def Started (e : DualBufferEngine) : Prop := ∀ i off, frontier e i = some off → 8 ≤ off

theorem Started.ahead (h : Started s.engine) (turn : ℕ → ℕ) :
    Ahead (s.request turn).req (s.engineOf (s.request turn).req.logId) := by
  intro i off endOff hoff hend
  have hcurrent : s.engineOf (s.request turn).req.logId = s.engine := engineOf_current s le_rfl
  rw [hcurrent] at hoff
  have hsame : (s.request turn).req.ends[i]? = frontier s.engine i := by
    unfold Store.request DualBufferEngine.swap Engine.frontier
    dsimp only
    rw [List.getElem?_map]
    cases i <;> rfl
  rw [hsame, hoff] at hend
  obtain rfl := Option.some.inj hend
  exact ⟨le_rfl, h i off hoff⟩

theorem Started.writeAt (h : Started s.engine) (i : ℕ) (call : Call) :
    Started (s.writeAt i call).engine := by
  intro j off hoff
  obtain ⟨log', hlog', rfl⟩ := Option.map_eq_some_iff.mp hoff
  obtain ⟨log, hlog, -, hle⟩ := log_writeShard (e := s.engine) hlog'
  have hbefore := h j log.writeOffset (by rw [Engine.frontier, hlog, Option.map_some])
  omega

theorem Started.rotate (h : Started s.engine) : Started s.rotate.engine := by
  unfold Store.rotate
  split
  · intro j off hoff
    cases j with
    | zero =>
      have hopen := open_empty s.cfg.bufferSize
      change some (CommutativeLog.open (fun _ => 0) s.cfg.bufferSize).writeOffset = some off at hoff
      rw [hopen] at hoff
      exact (Option.some.inj hoff).le
    | succ j => exact h (j + 1) off hoff
  · exact h

theorem Started.settle (h : Started s.engine) (t : Ticket) : Started (s.settle blake3 t).engine := by
  have hfolded : ∀ i, frontier (s.foldedEngine blake3 t) i = frontier (s.engineOf t.req.logId) i :=
    fun i => frontier_foldRequest _ _ i
  intro j off hoff
  rw [settle_eq, Store.restore] at hoff
  split at hoff
  case isTrue hlt =>
    cases j with
    | zero => exact h 0 off hoff
    | succ j => exact h (j + 1) off ((hfolded (j + 1)).symm.trans hoff)
  case isFalse hge =>
    rw [hfolded, engineOf_current s (by omega)] at hoff
    exact h j off hoff

end

/-! ## Runs -/

section
variable {blake3 : Bytes → Bytes32} {cfg : Config} {n : ℕ} {p : Threads}

/-- The outstanding requests settle to what the calls come to with waits: all but the last have nothing to
fold, all start from the stored accumulator, and a commit that is being sent is as if called now. -/
structure Sim (blake3 : Bytes → Bytes32) (cfg : Config) (n : ℕ) (p : Threads) : Prop where
  waited : p.outstanding.foldl (Store.settle blake3) p.store = waited blake3 cfg n p.calls
  quiet : ∀ t ∈ p.outstanding.dropLast, Empty p.store t
  acc : ∀ t ∈ p.outstanding, t.req.acc = p.store.engine.merkle
  ahead : ∀ t ∈ p.outstanding, Ahead t.req (p.store.engineOf t.req.logId)
  gen : ∀ t ∈ p.outstanding, t.req.logId ≤ p.store.retired.length
  started : Started p.store.engine
  sending : ∀ t ∈ p.sending, (∀ u ∈ p.outstanding, Empty p.store u) ∧ t = p.store.request t.turn

theorem foldl_settle_empty {s : Store} {ts : List Ticket} (hempty : ∀ t ∈ ts, Empty s t)
    (hacc : ∀ t ∈ ts, t.req.acc = s.engine.merkle) : ts.foldl (Store.settle blake3) s = s := by
  induction ts with
  | nil => rfl
  | cons t ts ih =>
    obtain ⟨h1, hempty⟩ := List.forall_mem_cons.mp hempty
    obtain ⟨h2, hacc⟩ := List.forall_mem_cons.mp hacc
    rw [List.foldl_cons, settle_empty h1 h2, ih hempty hacc]

theorem Sim.outstanding_cases (h : Sim blake3 cfg n p) :
    (p.outstanding = [] ∧ p.store = DonaDb.Queue.waited blake3 cfg n p.calls) ∨
    ∃ ts t, p.outstanding = ts ++ [t] ∧ (∀ u ∈ ts, Empty p.store u) ∧
      p.store.settle blake3 t = DonaDb.Queue.waited blake3 cfg n p.calls := by
  have hwaited := h.waited
  have hquiet := h.quiet
  have hacc := h.acc
  cases hout : p.outstanding using List.reverseRecOn with
  | nil =>
    rw [hout] at hwaited
    exact .inl ⟨rfl, hwaited⟩
  | append_singleton ts t =>
    rw [hout] at hwaited hquiet hacc
    rw [List.dropLast_concat] at hquiet
    rw [List.foldl_append, foldl_settle_empty hquiet fun u hu => hacc u (List.mem_append_left _ hu)]
      at hwaited
    exact .inr ⟨ts, t, rfl, hquiet, hwaited⟩

theorem waited_concat (calls : List Done) (d : Done) :
    DonaDb.Queue.waited blake3 cfg n (calls ++ [d]) =
      waitedStep blake3 (DonaDb.Queue.waited blake3 cfg n calls) d := by
  unfold DonaDb.Queue.waited
  rw [run_append]
  rfl

theorem Sim.write (h : Sim blake3 cfg n p) (hsending : p.sending = none) (shardId : ℕ) (call : Call) :
    Sim blake3 cfg n { p with
      store := p.store.write shardId call, calls := p.calls ++ [.write shardId call] } := by
  have hwrite : p.store.write shardId call =
    p.store.writeAt (shardId % (p.store.engine.rest.length + 1)) call := rfl
  refine ⟨?_, ?_, ?_, ?_, h.gen, ?_, ?_⟩
  · rw [waited_concat]
    change p.outstanding.foldl (Store.settle blake3) _ = _
    rcases h.outstanding_cases with ⟨hout, hstore⟩ | ⟨ts, t, hout, hempty, hstore⟩
    · rw [hout, ← hstore]
      rfl
    · have hin : t ∈ p.outstanding := by
        rw [hout]
        exact List.mem_append_right _ List.mem_cons_self
      have hbefore : ts.foldl (Store.settle blake3) (p.store.write shardId call) =
          p.store.write shardId call := by
        refine foldl_settle_empty (fun u hu => (hempty u hu).writeAt _ call) fun u hu => ?_
        rw [h.acc u (by rw [hout]; exact List.mem_append_left _ hu)]
        exact (merkle_writeAt _ _ call).symm
      rw [hout, List.foldl_append, hbefore, List.foldl_cons, List.foldl_nil, hwrite,
        settle_writeAt (h.ahead t hin), ← hstore, waitedStep, Store.write, length_rest_settle]
  · exact fun t ht => (h.quiet t ht).writeAt _ call
  · intro t ht
    rw [h.acc t ht]
    exact (merkle_writeAt _ _ call).symm
  · exact fun t ht => (h.ahead t ht).writeAt _ call
  · exact h.started.writeAt _ call
  · intro t ht
    rw [hsending] at ht
    cases ht

theorem Sim.send (h : Sim blake3 cfg n p) {t : Ticket} (hsending : p.sending = some t) :
    Sim blake3 cfg n { p with
      store := p.store.rotate, sending := none, queue := p.queue ++ [t],
      calls := p.calls ++ [.commit t.turn] } := by
  obtain ⟨hempty, ht⟩ := h.sending t hsending
  have hout : ({ p with
      store := p.store.rotate, sending := none, queue := p.queue ++ [t],
      calls := p.calls ++ [.commit t.turn] } : Threads).outstanding = p.outstanding ++ [t] :=
    (List.append_assoc _ _ _).symm
  have hgen : t.req.logId = p.store.retired.length := by
    rw [ht]
    rfl
  have hmerkle := merkle_rotate p.store
  have hempty' : ∀ u ∈ p.outstanding, Empty p.store.rotate u := by
    intro u hu
    unfold Empty
    rw [engineOf_rotate (h.gen u hu)]
    exact hempty u hu
  have hgens : ∀ u ∈ p.outstanding ++ [t], u.req.logId ≤ p.store.retired.length := by
    intro u hu
    rcases List.mem_append.mp hu with hu | hu
    · exact h.gen u hu
    · obtain rfl := List.mem_singleton.mp hu
      exact hgen.le
  have haccs : ∀ u ∈ p.outstanding ++ [t], u.req.acc = p.store.rotate.engine.merkle := by
    intro u hu
    rw [hmerkle]
    rcases List.mem_append.mp hu with hu | hu
    · exact h.acc u hu
    · obtain rfl := List.mem_singleton.mp hu
      rw [ht]
      rfl
  refine ⟨?_, ?_, ?_, ?_, ?_, h.started.rotate, ?_⟩
  · have hstore : p.store = DonaDb.Queue.waited blake3 cfg n p.calls := by
      rw [← h.waited, foldl_settle_empty hempty h.acc]
    rw [hout, List.foldl_append,
      foldl_settle_empty hempty' fun u hu => haccs u (List.mem_append_left _ hu), waited_concat, ← hstore]
    change p.store.rotate.settle blake3 t = (p.store.settle blake3 (p.store.request t.turn)).rotate
    rw [settle_rotate hgen, ← ht]
  · rw [hout, List.dropLast_concat]
    exact hempty'
  · rw [hout]
    exact haccs
  · rw [hout]
    intro u hu
    change Ahead u.req (p.store.rotate.engineOf u.req.logId)
    rw [engineOf_rotate (hgens u hu)]
    rcases List.mem_append.mp hu with hu | hu
    · exact h.ahead u hu
    · obtain rfl := List.mem_singleton.mp hu
      rw [ht]
      exact h.started.ahead _
  · rw [hout]
    intro u hu
    refine (hgens u hu).trans ?_
    change _ ≤ p.store.rotate.retired.length
    unfold Store.rotate
    split
    · simp
    · exact le_rfl
  · intro u hu
    cases hu

theorem Sim.finish (h : Sim blake3 cfg n p) {t : Ticket} (hworking : p.working = some t) :
    Sim blake3 cfg n { p with store := p.store.settle blake3 t, working := none } := by
  have hout : p.outstanding = t :: p.queue := by
    unfold Threads.outstanding
    rw [hworking]
    rfl
  have hacc : t.req.acc = p.store.engine.merkle := h.acc t (by rw [hout]; exact List.mem_cons_self)
  have hwaited := h.waited
  rw [hout] at hwaited
  by_cases hempty : Empty p.store t
  · have hsub : ∀ u ∈ p.queue, u ∈ p.outstanding := fun u hu => by rw [hout]; exact List.mem_cons_of_mem t hu
    rw [List.foldl_cons, settle_empty hempty hacc] at hwaited
    rw [settle_empty hempty hacc]
    refine ⟨hwaited, ?_, fun u hu => h.acc u (hsub u hu), fun u hu => h.ahead u (hsub u hu),
      fun u hu => h.gen u (hsub u hu), h.started, ?_⟩
    · intro u hu
      refine h.quiet u ?_
      rw [hout]
      change u ∈ p.queue.dropLast at hu
      rw [List.dropLast_cons_of_ne_nil (List.ne_nil_of_mem (List.mem_of_mem_dropLast hu))]
      exact List.mem_cons_of_mem t hu
    · intro u hu
      obtain ⟨hall, hrequest⟩ := h.sending u hu
      exact ⟨fun v hv => hall v (hsub v hv), hrequest⟩
  · -- a request with records is the only one
    have hqueue : p.queue = [] := by
      by_contra hne
      refine hempty (h.quiet t ?_)
      rw [hout, List.dropLast_cons_of_ne_nil hne]
      exact List.mem_cons_self
    have hnone : p.sending = none := by
      cases hs : p.sending with
      | none => rfl
      | some u => exact absurd ((h.sending u hs).1 t (by rw [hout]; exact List.mem_cons_self)) hempty
    have hnil : ({ p with store := p.store.settle blake3 t, working := none } : Threads).outstanding = [] := by
      unfold Threads.outstanding
      rw [hqueue]
      rfl
    rw [hqueue] at hwaited
    refine ⟨?_, ?_, ?_, ?_, ?_, h.started.settle t, ?_⟩
    · rw [hnil]
      exact hwaited
    · simp [hnil]
    · simp [hnil]
    · simp [hnil]
    · simp [hnil]
    · simp [hnone]

theorem Sim.step (h : Sim blake3 cfg n p) {a : Act} (ha : Settled p a) :
    Sim blake3 cfg n (step blake3 p a) := by
  cases a with
  | write shardId call =>
    unfold DonaDb.Queue.step
    cases hsending : p.sending with
    | some t => exact h
    | none =>
      have hwritten := h.write hsending shardId call
      rw [hsending] at hwritten
      exact hwritten
  | begin turn =>
    unfold DonaDb.Queue.step
    cases hsending : p.sending with
    | some t => exact h
    | none =>
      refine ⟨h.waited, h.quiet, h.acc, h.ahead, h.gen, h.started, ?_⟩
      intro t ht
      obtain rfl := Option.some.inj ht
      exact ⟨ha, rfl⟩
  | send =>
    unfold DonaDb.Queue.step
    cases hsending : p.sending with
    | none => exact h
    | some t =>
      dsimp only
      split
      · exact h.send hsending
      · exact h
  | take =>
    unfold DonaDb.Queue.step
    cases hworking : p.working with
    | some t => exact h
    | none =>
      cases hqueue : p.queue with
      | nil => exact h
      | cons t queue =>
        have hout : ({ p with working := some t, queue } : Threads).outstanding = p.outstanding := by
          unfold Threads.outstanding
          rw [hworking, hqueue]
          rfl
        exact ⟨hout ▸ h.waited, hout ▸ h.quiet, hout ▸ h.acc, hout ▸ h.ahead, hout ▸ h.gen, h.started,
          hout ▸ h.sending⟩
  | finish =>
    unfold DonaDb.Queue.step
    cases hworking : p.working with
    | none => exact h
    | some t => exact h.finish hworking

theorem sim_start (blake3 : Bytes → Bytes32) (cfg : Config) (n : ℕ) : Sim blake3 cfg n (start cfg n) := by
  refine ⟨rfl, by simp [start, Threads.outstanding], by simp [start, Threads.outstanding],
    by simp [start, Threads.outstanding], by simp [start, Threads.outstanding], ?_, by simp [start]⟩
  intro i off hoff
  obtain ⟨log, hlog, rfl⟩ := Option.map_eq_some_iff.mp hoff
  have hfresh : log = freshLog cfg.bufferSize := by
    cases i with
    | zero => exact (Option.some.inj hlog).symm
    | succ i => exact List.eq_of_mem_replicate (List.mem_of_getElem? hlog)
  rw [hfresh]
  exact le_rfl

end

/-- **Commits that do not wait come to the same as commits that do**, once the channel is drained, in
every interleaving in which no commit is called while a request with records is outstanding. -/
theorem drained_eq_waited (blake3 : Bytes → Bytes32) (cfg : Config) (n : ℕ) (acts : List Act)
    (h : Along (step blake3) Settled (start cfg n) acts)
    (hdrained : Drained (run (step blake3) (start cfg n) acts)) :
    (run (step blake3) (start cfg n) acts).store.engine.merkle =
      (waited blake3 cfg n (run (step blake3) (start cfg n) acts).calls).engine.merkle := by
  have hsim := h.invariant (I := Sim blake3 cfg n) (fun _ _ hp ha => hp.step ha) (sim_start blake3 cfg n)
  have hwaited := hsim.waited
  rw [hdrained.2] at hwaited
  exact congrArg (fun s => s.engine.merkle) hwaited

/-- Two commits, the second called when the first is folded; its block is written during the fold. -/
def inOrder : List Act :=
  [.write 0 (.put 1 [7] 0 0), .begin id, .send, .take, .write 0 (.put 2 [8] 0 0), .finish, .begin id, .send,
    .take, .finish]

theorem inOrder_eq_waited :
    (run (step sampleHash) (start smallConfig 1) inOrder).store.engine.merkle =
      (waited sampleHash smallConfig 1
        (run (step sampleHash) (start smallConfig 1) inOrder).calls).engine.merkle := by
  refine drained_eq_waited sampleHash smallConfig 1 inOrder ?_ ⟨rfl, rfl⟩
  have hnone : ∀ {p : Threads}, p.outstanding = [] → Settled p (.begin id) := by
    intro p hp t ht
    rw [hp] at ht
    cases ht
  exact ⟨trivial, hnone rfl, trivial, trivial, trivial, trivial, hnone rfl, trivial, trivial, trivial, trivial⟩

/-- Two commits in a row: the first block is lost from the accumulator. -/
theorem second_commit_drops_first : ¬ ∀ (blake3 : Bytes → Bytes32) (cfg : Config) (n : ℕ) (acts : List Act),
    Drained (run (step blake3) (start cfg n) acts) →
      (run (step blake3) (start cfg n) acts).store.engine.merkle =
        (waited blake3 cfg n (run (step blake3) (start cfg n) acts).calls).engine.merkle := by
  intro h
  have hmerkle := h sampleHash smallConfig 1 [.write 0 (.put 1 [7] 0 0), .begin id, .send,
    .write 0 (.put 2 [8] 0 0), .begin id, .send, .take, .finish, .take, .finish] ⟨rfl, rfl⟩
  revert hmerkle
  decide +kernel

end TruthLinked.DonaDb.Queue
