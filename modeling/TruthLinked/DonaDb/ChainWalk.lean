import Mathlib.Logic.Relation
import TruthLinked.DonaDb.Versions

/-! # Where the chain of previous offsets leads

`chain_walk` reads one log, but the previous offset in a record is whatever the index held, also when that
entry is of a segment sealed since. As long as no block puts a key whose entry is of an older segment the
chain stays in its segment: every walk ends, comes to records of its key only and goes down
(`chain_walk_descends`). Otherwise it can come to another key's record, or back to its own
(`chain_walk_loops`). -/

namespace TruthLinked.DonaDb.ChainWalk

open Core.Types Lib.Run Lib.Table DonaDb.Log DonaDb.Fold DonaDb.Cache DonaDb.Block DonaDb.Engine
open DonaDb.History DonaDb.Lookup DonaDb.Versions

variable {blake3 : Bytes → Bytes32} {w : World} {segs parts : List (List Record)} {pend : List Record}
  {base : Bytes32 → ℕ} {key : Bytes32} {log : CommutativeLog} {target off off' : ℕ}

/-! ## The walk as a relation -/

/-- The loop goes on from the record at `off` to its previous offset. -/
def Follows (log : CommutativeLog) (target off off' : ℕ) : Prop :=
  ∃ r, decode log.mmap off = some r ∧ r.deleted = false ∧ off + (chdr + 32) ≤ log.capacity ∧
    target < r.height ∧ r.prevOffset ≠ 0 ∧ off' = r.prevOffset

/-- The record at `off` is of the key, and the walk goes on further down if at all. -/
def Sound (log : CommutativeLog) (key : Bytes32) (target off : ℕ) : Prop :=
  (∃ r, decode log.mmap off = some r ∧ r.key = key) ∧ ∀ off', Follows log target off off' → off' < off

/-- A walk from `off` ends, and is sound wherever it comes. -/
def Descends (log : CommutativeLog) (key : Bytes32) (target off : ℕ) : Prop :=
  (∃ enough, ∀ fuel, enough ≤ fuel → (chainWalk log target fuel off).isSome) ∧
    ∀ off', Relation.ReflTransGen (Follows log target) off off' → Sound log key target off'

theorem chainWalk_follows (h : Follows log target off off') (fuel : ℕ) :
    chainWalk log target (fuel + 1) off = chainWalk log target fuel off' := by
  obtain ⟨r, hdecode, hput, hroom, hheight, hprev, rfl⟩ := h
  rw [chainWalk, hdecode]
  dsimp only
  rw [if_neg (by rw [hput]; simp; omega), if_neg (by omega), if_neg hprev]

theorem chainWalk_returns (h : ∀ off', ¬ Follows log target off off') (fuel : ℕ) :
    (chainWalk log target (fuel + 1) off).isSome := by
  rw [chainWalk]
  cases hdecode : decode log.mmap off with
  | none => rfl
  | some r =>
    dsimp only
    split
    · rfl
    case isFalse hok =>
      rw [not_or, Nat.not_lt, Bool.not_eq_true] at hok
      split
      · split <;> rfl
      case isFalse hheight =>
        split
        · rfl
        case isFalse hprev =>
          exact absurd ⟨r, hdecode, hok.1, hok.2, by omega, hprev, rfl⟩ (h r.prevOffset)

/-- **A walk that always goes down ends.** -/
theorem descends_of_sound
    (h : ∀ off', Relation.ReflTransGen (Follows log target) off off' → Sound log key target off') :
    Descends log key target off := by
  refine ⟨⟨off + 1, ?_⟩, h⟩
  induction off using Nat.strong_induction_on with
  | _ off ih =>
    intro fuel hfuel
    obtain ⟨fuel, rfl⟩ := Nat.exists_eq_add_of_lt (Nat.lt_of_lt_of_le (Nat.succ_pos off) hfuel)
    rw [Nat.zero_add] at hfuel ⊢
    by_cases hnext : ∃ off', Follows log target off off'
    · obtain ⟨off', hoff'⟩ := hnext
      have hlt := (h off .refl).2 off' hoff'
      rw [chainWalk_follows hoff']
      exact ih off' hlt (fun q hq => h q (.head hoff' hq)) fuel (by omega)
    · exact chainWalk_returns (not_exists.mp hnext) fuel

/-! ## A chain that ends in its segment -/

theorem linked_of_unkeyed {b : ℕ} {older : List (List Record)} (hnone : ∀ r ∈ older.flatten, r.key ≠ key) :
    Linked key b older off ↔ off = b :=
  linked_untouched fun rs hrs =>
    have hkey (p : Record → Bool) : lastOf Record.key key (rs.filter p) = none := lastOf_eq_none.mpr fun r hr =>
      hnone r (List.mem_flatten.mpr ⟨rs, hrs, (List.mem_filter.mp hr).1⟩)
    ⟨hkey _, hkey _⟩

/-- The blocks, the newest first, are records of the log, and those of a block lie above the older ones. -/
def Stacked (log : CommutativeLog) : List (List Record) → Prop
  | [] => True
  | rs :: older => (∀ r ∈ rs, decode log.mmap r.offset = some r) ∧
      (∀ r ∈ rs, ∀ q ∈ older.flatten, q.offset < r.offset) ∧ Stacked log older

/-- **A chain that ends in its segment is sound all the way.** -/
theorem sound_of_linked {older : List (List Record)} (h : Linked key 0 older off) (hlog : Stacked log older)
    (htouch : ∃ r ∈ older.flatten, r.key = key) (hreach : Relation.ReflTransGen (Follows log target) off off') :
    Sound log key target off' := by
  induction older generalizing off with
  | nil =>
    obtain ⟨r, hr, -⟩ := htouch
    cases hr
  | cons rs older ih =>
    obtain ⟨hdecode, habove, hrest⟩ := hlog
    rw [Linked] at h
    cases hput : lastPut rs key with
    | some r =>
      rw [hput] at h
      obtain ⟨rfl, hlinked⟩ := h
      obtain ⟨hr, -, hkey⟩ := lastPut_mem hput
      -- the previous offset is that of an older record of the key
      have hstep : ∀ q, Follows log target r.offset q → q = r.prevOffset ∧ ∃ s ∈ older.flatten, s.key = key := by
        rintro q ⟨r', hr', -, -, -, hprev, rfl⟩
        rw [hdecode r hr] at hr'
        obtain rfl := Option.some.inj hr'
        refine ⟨rfl, ?_⟩
        by_contra hnot
        push Not at hnot
        exact hprev ((linked_of_unkeyed hnot).mp hlinked)
      rcases hreach.cases_head with rfl | ⟨q, hq, hreach⟩
      · refine ⟨⟨r, hdecode r hr, hkey⟩, fun q hq => ?_⟩
        obtain ⟨rfl, holder⟩ := hstep q hq
        obtain ⟨s, hs, -, hsoff⟩ := linked_touched hlinked holder
        rw [hsoff]
        exact habove r hr s hs
      · obtain ⟨rfl, holder⟩ := hstep q hq
        exact ih hlinked hrest holder hreach
    | none =>
      cases htomb : lastTombstone rs key with
      | some t =>
        rw [hput, htomb] at h
        obtain rfl : off = t.offset := h
        obtain ⟨ht, hkey⟩ := lastOf_mem htomb
        obtain ⟨hin, hdel⟩ := List.mem_filter.mp ht
        -- a walk stops at a tombstone
        have hstop : ∀ q, ¬ Follows log target t.offset q := by
          rintro q ⟨r', hr', hput', -⟩
          rw [hdecode t hin] at hr'
          obtain rfl := Option.some.inj hr'
          rw [hdel] at hput'
          cases hput'
        rcases hreach.cases_head with rfl | ⟨q, hq, -⟩
        · exact ⟨⟨t, hdecode t hin, hkey⟩, fun q hq => absurd hq (hstop q)⟩
        · exact absurd hq (hstop q)
      | none =>
        rw [hput, htomb] at h
        refine ih h hrest ?_ hreach
        obtain ⟨r, hr, hkey⟩ := htouch
        rw [List.flatten_cons] at hr
        rcases List.mem_append.mp hr with hr | hr
        · have hd := lastTombstone_eq_none.mp htomb r hr hkey
          exact absurd hkey (lastOf_eq_none.mp hput r (List.mem_filter.mpr ⟨hr, by simp [hd]⟩))
        · exact ⟨r, hr, hkey⟩

theorem stacked_of_lays {m : ℕ → UInt8} {a b : ℕ} (hm : log.mmap = m) (h : Lays m a parts.flatten b) :
    Stacked log parts.reverse := by
  have hdecode : ∀ r ∈ parts.flatten, decode log.mmap r.offset = some r := by
    rw [hm]
    exact fun r hr => (h.decode hr).1
  have hasc := ascending_of_lays h
  clear h hm
  induction parts using List.reverseRecOn with
  | nil => trivial
  | append_singleton parts rs ih =>
    rw [List.flatten_append, List.flatten_singleton] at hdecode hasc
    obtain ⟨hleft, -, hcross⟩ := List.pairwise_append.mp hasc
    rw [List.reverse_append, List.reverse_singleton, List.singleton_append]
    refine ⟨fun r hr => hdecode r (List.mem_append_right _ hr), fun r hr q hq => ?_,
      ih (fun r hr => hdecode r (List.mem_append_left _ hr)) hleft⟩
    have hq : q ∈ parts.flatten := by
      simpa only [List.mem_flatten, List.mem_reverse] using hq
    exact hcross q hq r hr

/-! ## Histories -/

/-- The entry of a key that the block puts is of the active segment. -/
def SameSegment (w : World) : Prop :=
  ∀ x ∈ w.journal.pending, x.value.isSome = true → ∀ e ∈ w.db.dbe.index[x.key]?, e.logId = w.db.gen

instance (w : World) : Decidable (SameSegment w) :=
  inferInstanceAs (Decidable (∀ x ∈ w.journal.pending, x.value.isSome = true →
    ∀ e ∈ w.db.dbe.index[x.key]?, e.logId = w.db.gen))

/-- The calls that keep the chains in their segment: a commit puts no key whose entry is of an older one. -/
def Anchored (w : World) (op : Op) : Prop :=
  Plain w op ∧ match op with
    | .commit _ _ => SameSegment w
    | _ => True

/-- The chains of the active segment end there. -/
def Grounded (w : World) (parts : List (List Record)) : Prop :=
  ∀ key e, w.db.dbe.index[key]? = some e → e.logId = w.db.gen → Linked key 0 parts.reverse e.offset

/-- **A fold keeps the chains in their segment.** -/
theorem grounded_folded (blake3 : Bytes → Bytes32) (h : Chained w segs parts pend base)
    (hground : Grounded w parts) (hsame : SameSegment w) {e : Entry}
    (he : (w.folded blake3).index[key]? = some e) (hgen : e.logId = w.db.gen) :
    Linked key 0 (parts ++ [foldedRecords blake3 w.db.dbe.index pend]).reverse e.offset := by
  have hindex : (w.folded blake3).index[key]? = entryAfter blake3 w.db.dbe.index w.db.gen pend key :=
    index_commitFold blake3 _ _ _ h.tracks.holds.pend key
  have hoff : oldOffset (w.folded blake3).index key = e.offset := by
    rw [oldOffset, he]
    rfl
  cases hput : lastPut pend key with
  | some r =>
    obtain ⟨hr, hd, hkey⟩ := lastPut_mem hput
    have hold : Linked key 0 parts.reverse (oldOffset w.db.dbe.index key) := by
      cases hentry : w.db.dbe.index[key]? with
      | none =>
        rw [oldOffset, hentry]
        refine (linked_of_unkeyed fun q hq => ?_).mpr rfl
        have hq : q ∈ parts.flatten := by
          simpa only [List.mem_flatten, List.mem_reverse] using hq
        exact (h.known key).mp hentry q (List.mem_append_right _ hq)
      | some old =>
        rw [oldOffset, hentry]
        refine hground key old hentry ?_
        have hin : toWrite r ∈ w.journal.pending := by
          rw [← h.tracks.pending]
          exact List.mem_map_of_mem hr
        refine hsame (toWrite r) hin (by simp [toWrite, hd]) old ?_
        rw [show (toWrite r).key = key from hkey]
        exact hentry
    rw [← hoff]
    exact linked_fold hold (ascending_of_lays h.tracks.holds.pend) (fun r hr => (h.fresh r hr).1) (h.small key)
      hindex
  | none =>
    have hlinked := linked_fold (h.linked key) (ascending_of_lays h.tracks.holds.pend)
      (fun r hr => (h.fresh r hr).1) (h.small key) hindex
    rw [hoff] at hlinked
    rw [List.reverse_append, List.reverse_singleton, List.singleton_append, Linked] at hlinked ⊢
    unfold foldedRecords at hlinked ⊢
    rw [lastPut_map (by simp) (by simp), lastTombstone_map (by simp) (by simp), hput] at hlinked ⊢
    cases htomb : lastTombstone pend key with
    | some t =>
      rw [htomb] at hlinked
      exact hlinked
    | none =>
      rw [hindex, entryAfter, hput, htomb] at he
      exact hground key e he hgen

/-- What the histories keep. -/
def Kept (w : World) : Prop := ∃ segs parts pend base, Chained w segs parts pend base ∧ Grounded w parts

theorem Kept.writes {w w' : World} {x : Write} {c : ValueCache} (h : Kept w) (hw : Writes w x c w') :
    Kept w' := by
  obtain ⟨segs, parts, pend, base, hchained, hground⟩ := h
  obtain ⟨pend', hchained'⟩ := hchained.writes hw
  refine ⟨segs, parts, pend', base, hchained', ?_⟩
  cases hw with
  | failed => exact hground
  | appended => exact hground

/-- **A call keeps the chains in their segment.** -/
theorem Kept.step (blake3 : Bytes → Bytes32) {op : Op} (h : Kept w) (hop : Anchored w op) :
    Kept (step blake3 w op) := by
  cases op with
  | put key value => exact h.writes (writes_put w hop.1)
  | delete key => exact h.writes (writes_delete w key)
  | writerPut shardId key value =>
    rw [step_writerPut hop.1.1]
    exact h.writes (writes_put w hop.1.2)
  | get key =>
    obtain ⟨c, -, hc⟩ := snd_get w.db key
    obtain ⟨segs, parts, pend, base, hchained, hground⟩ := h
    rw [History.step, hc]
    exact ⟨segs, parts, pend, base, hchained.withCache c, hground⟩
  | commit height s =>
    obtain ⟨segs, parts, pend, base, hchained, hground⟩ := h
    cases hrot : w.rotates with
    | false =>
      refine ⟨_, _, _, _, hchained.commit blake3 hrot height s, ?_⟩
      rw [step_commit hchained.tracks hrot]
      exact fun key e he hgen => grounded_folded blake3 hchained hground hop.2 he hgen
    | true =>
      have hnext := hchained.commitRotate blake3 hrot height s
      -- all entries are of an older segment now
      refine ⟨_, _, _, _, hnext, fun key e he hgen => ?_⟩
      obtain ⟨r, hr, -⟩ := (hnext.gen key e he).2.mp hgen
      cases hr

theorem Kept.descends (h : Kept w) {e : Entry} (he : w.db.dbe.index[key]? = some e)
    (hgen : e.logId = w.db.gen) (target : ℕ) : Descends w.db.dbe.active key target e.offset := by
  obtain ⟨segs, parts, pend, base, hchained, hground⟩ := h
  refine descends_of_sound fun off' hreach => ?_
  refine sound_of_linked (hground key e he hgen) (stacked_of_lays rfl hchained.tracks.holds.done) ?_ hreach
  obtain ⟨r, hr, hkey⟩ := (hchained.gen key e he).2.mp hgen
  refine ⟨r, ?_, hkey⟩
  simpa only [List.mem_flatten, List.mem_reverse] using hr

/-- **The walks of `get_at` go down**: in a history that writes to shard 0 only and puts no key whose
entry is of an older segment, a walk from an entry of the active segment ends at every height and visits
records of its key only, each below the one before. -/
theorem chain_walk_descends (blake3 : Bytes → Bytes32) (cfg : Config) (n : ℕ) (ops : List Op)
    (h : Along (step blake3) Anchored (start blake3 cfg n) ops) (key : Bytes32) (e : Entry)
    (he : (run (step blake3) (start blake3 cfg n) ops).db.dbe.index[key]? = some e)
    (hgen : e.logId = (run (step blake3) (start blake3 cfg n) ops).db.gen) (target : ℕ) :
    Descends (run (step blake3) (start blake3 cfg n) ops).db.dbe.active key target e.offset := by
  have hkept : Kept (run (step blake3) (start blake3 cfg n) ops) := h.invariant (I := Kept)
    (fun w op hw hop => hw.step blake3 hop)
    ⟨_, _, _, _, chained_start blake3 cfg n, fun key e he => by
      unfold start at he
      rw [open_new] at he
      cases he⟩
  exact hkept.descends he hgen target

def threeRecords : Config := ⟨1024, fun used => 150 ≤ used, smallConfig.header, smallConfig.width⟩

/-- A sealed segment, and a key with two versions in the active one. -/
def sealedThenTwice : List Op :=
  [.put 1 [7], .put 2 [8], .put 4 [9], .commit 1 foldFirst, .put 3 [7], .commit 2 foldFirst, .put 3 [8],
    .commit 3 foldFirst]

theorem sealedThenTwice_descends :
    (run (step sampleHash) (start sampleHash threeRecords 1) sealedThenTwice).db.segments.length = 1 ∧
    Descends (run (step sampleHash) (start sampleHash threeRecords 1) sealedThenTwice).db.dbe.active 3 1 65 := by
  have hshort : ∀ b : UInt8, [b].length < 2 ^ 32 := by simp
  have hanchored : Along (step sampleHash) Anchored (start sampleHash threeRecords 1) sealedThenTwice :=
    ⟨⟨hshort 7, trivial⟩, ⟨hshort 8, trivial⟩, ⟨hshort 9, trivial⟩, ⟨trivial, by decide +kernel⟩,
      ⟨hshort 7, trivial⟩, ⟨trivial, by decide +kernel⟩, ⟨hshort 8, trivial⟩,
      ⟨trivial, by decide +kernel⟩, trivial⟩
  exact ⟨by decide +kernel, chain_walk_descends sampleHash threeRecords 1 sealedThenTwice hanchored 3
    ⟨3, 65, 2, 1, false, sampleHash [8]⟩ (by decide +kernel) (by decide +kernel) 1⟩

/-- The first key of a segment, put again as the first of the next one. -/
def firstOfBoth : List Op :=
  [.put 1 [7], .put 2 [8], .commit 1 foldFirst, .commit 5 foldFirst, .put 1 [9], .commit 6 foldFirst]

theorem firstOfBoth_self :
    decode (run (step sampleHash) (start sampleHash rotatingConfig 0) firstOfBoth).db.dbe.active.mmap 8 =
      some ⟨8, false, 8, 5, 1, [9]⟩ := by decide +kernel

theorem chain_walk_loops (fuel : ℕ) :
    chainWalk (run (step sampleHash) (start sampleHash rotatingConfig 0) firstOfBoth).db.dbe.active 3 fuel 8 =
      none := by
  have hcapacity : (run (step sampleHash) (start sampleHash rotatingConfig 0)
      firstOfBoth).db.dbe.active.capacity =
      1024 := by decide +kernel
  induction fuel with
  | zero => rfl
  | succ fuel ih =>
    rw [chainWalk_follows ⟨_, firstOfBoth_self, rfl, by rw [hcapacity]; decide, by decide, by decide, rfl⟩]
    exact ih

/-- Not every walk ends: `get_at` starts this one for height 3. -/
theorem walk_leaves_segment : ¬ ∀ (blake3 : Bytes → Bytes32) (cfg : Config) (n : ℕ) (ops : List Op)
    (key : Bytes32) (e : Entry), (run (step blake3) (start blake3 cfg n) ops).db.dbe.index[key]? = some e →
      e.logId = (run (step blake3) (start blake3 cfg n) ops).db.gen → ∀ target,
        Descends (run (step blake3) (start blake3 cfg n) ops).db.dbe.active key target e.offset := by
  intro h
  obtain ⟨⟨enough, hreturns⟩, -⟩ := h sampleHash rotatingConfig 0 firstOfBoth 1
    ⟨1, 8, 2, 1, false, sampleHash [9]⟩ (by decide +kernel) (by decide +kernel) 3
  have hsome := hreturns enough le_rfl
  rw [chain_walk_loops] at hsome
  cases hsome

end TruthLinked.DonaDb.ChainWalk
