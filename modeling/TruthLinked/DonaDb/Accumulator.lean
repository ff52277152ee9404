import TruthLinked.DonaDb.History
import Mathlib.Data.List.Dedup

/-! # The state root over whole histories

The root of a database should be that of its live keys: the exclusive or of `key ^ blake3(value)` over
the keys whose last committed operation is a put. The two passes of the fold keep this as long as a block
does not put and delete the same key, and does not delete a live key an even number of times
(`root_of_live`); a key that is put and deleted in one block leaves its contribution behind. -/

namespace TruthLinked.DonaDb.Accumulator

open Core.Types Lib.Run Lib.Table Lib.XorGroup DonaDb.Log DonaDb.Fold DonaDb.Block DonaDb.Engine
open DonaDb.History

/-! ## The root of the live keys -/

/-- What a key should contribute after the given writes. -/
def share (blake3 : Bytes → Bytes32) (ws : List Write) (key : Bytes32) : Bytes32 :=
  match liveValue ws key with
  | some v => key ^^^ blake3 v
  | none => 0

/-- The exclusive or over the live keys. -/
def liveRoot (blake3 : Bytes → Bytes32) (ws : List Write) : Bytes32 :=
  (ws.map Write.key).dedup.foldl (fun acc key => acc ^^^ share blake3 ws key) 0

variable {blake3 : Bytes → Bytes32} {ws : List Write} {index index' : ShardIndex} {rs : List Record}

theorem liveValue_eq_none {key : Bytes32} (h : ∀ x ∈ ws, x.key ≠ key) : liveValue ws key = none := by
  unfold liveValue
  rw [lastOf_eq_none.mpr h]
  rfl

theorem of_liveRoot {S : Finset Bytes32} (hS : ∀ x ∈ ws, x.key ∈ S) :
    Xor.of (liveRoot blake3 ws) = ∑ key ∈ S, Xor.of (share blake3 ws key) := by
  unfold liveRoot
  rw [of_foldl (f := fun key => Xor.of (share blake3 ws key)) (fun acc key => of_xor _ _), of_zero,
    zero_add, ← List.sum_toFinset _ (List.nodup_dedup _)]
  refine Finset.sum_subset ?_ ?_
  · intro key hkey
    rw [List.mem_toFinset, List.mem_dedup] at hkey
    obtain ⟨x, hx, rfl⟩ := List.mem_map.mp hkey
    exact hS x hx
  · intro key _ hkey
    rw [List.mem_toFinset, List.mem_dedup] at hkey
    have hnone : liveValue ws key = none :=
      liveValue_eq_none fun x hx hxk => hkey (List.mem_map.mpr ⟨x, hx, hxk⟩)
    rw [share, hnone]
    rfl

/-- **The root depends on the live values only**, not on the writes that led to them. -/
theorem liveRoot_congr {ws' : List Write} (h : ∀ key, liveValue ws key = liveValue ws' key) :
    liveRoot blake3 ws = liveRoot blake3 ws' := by
  have hof : Xor.of (liveRoot blake3 ws) = Xor.of (liveRoot blake3 ws') := by
    rw [of_liveRoot (S := ((ws ++ ws').map Write.key).toFinset),
      of_liveRoot (S := ((ws ++ ws').map Write.key).toFinset)]
    · refine Finset.sum_congr rfl fun key _ => ?_
      unfold share
      rw [h key]
    · intro x hx
      exact List.mem_toFinset.mpr (List.mem_map_of_mem (List.mem_append_right _ hx))
    · intro x hx
      exact List.mem_toFinset.mpr (List.mem_map_of_mem (List.mem_append_left _ hx))
  exact hof

/-! ## The index and the journal -/

/-- The index knows the last write of every key. -/
def Indexed (blake3 : Bytes → Bytes32) (index : ShardIndex) (ws : List Write) : Prop :=
  ∀ key, match lastOf Write.key key ws with
    | none => index[key]? = none
    | some x => ∃ e, index[key]? = some e ∧ e.deleted = x.value.isNone ∧
        ∀ v, x.value = some v → e.valueHash = blake3 v

theorem indexed_nil (blake3 : Bytes → Bytes32) : Indexed blake3 ∅ [] := fun _ => rfl

theorem contribution_of_indexed (h : Indexed blake3 index ws) (key : Bytes32) :
    contribution index key = Xor.of (share blake3 ws key) := by
  have hkey := h key
  unfold contribution share liveValue
  cases hlast : lastOf Write.key key ws with
  | none =>
    rw [hlast] at hkey
    rw [hkey]
    rfl
  | some x =>
    rw [hlast] at hkey
    obtain ⟨e, he, hdel, hhash⟩ := hkey
    rw [he]
    dsimp only [Option.bind_some]
    rw [hdel]
    cases hx : x.value with
    | none => rfl
    | some v =>
      rw [hhash v hx]
      rfl

theorem indexed_fold {logId : ℕ} (h : Indexed blake3 index ws) (hno : NoPutAfterDelete rs)
    (hindex : ∀ key, index'[key]? = entryAfter blake3 index logId rs key) :
    Indexed blake3 index' (ws ++ rs.map toWrite) := by
  intro key
  have hreflects : Reflects blake3 index index' rs key := by
    refine (reflects_entryAfter_iff (hindex key)).mpr fun r hlast hput => ?_
    exact hno.lastTombstone_eq_none hlast hput
  rw [lastOf_append, lastOf_toWrite]
  unfold Reflects at hreflects
  cases hlast : lastOf Record.key key rs with
  | none =>
    rw [hlast] at hreflects
    have := h key
    rw [Option.map_none, Option.none_or, hreflects]
    exact this
  | some r =>
    rw [hlast] at hreflects
    obtain ⟨e, he, hdel, hput⟩ := hreflects
    rw [Option.map_some, Option.some_or]
    refine ⟨e, he, ?_, ?_⟩
    · rw [hdel]
      cases hd : r.deleted <;> simp [toWrite, hd]
    · intro v hv
      cases hd : r.deleted with
      | true => simp [toWrite, hd] at hv
      | false =>
        have hvalue : r.value = v := by simpa [toWrite, hd] using hv
        rw [(hput hd).2, hvalue]

/-! ## Blocks that the two passes treat right -/

/-- After the writes `ws`, the block `pend` does not put and delete one key, and deletes a live key an
odd number of times if it deletes it. -/
def CleanBlock (ws pend : List Write) : Prop :=
  ∀ x ∈ pend, (∀ y ∈ pend, y.key = x.key → y.value.isSome = x.value.isSome) ∧
    (x.value = none → (liveValue ws x.key).isSome = true → Odd (pend.countP fun y => y.key = x.key))

instance (ws pend : List Write) : Decidable (CleanBlock ws pend) :=
  inferInstanceAs (Decidable (∀ x ∈ pend, (∀ y ∈ pend, y.key = x.key → y.value.isSome = x.value.isSome) ∧
    (x.value = none → (liveValue ws x.key).isSome = true → Odd (pend.countP fun y => y.key = x.key))))

theorem isSome_toWrite (r : Record) : (toWrite r).value.isSome = !r.deleted := by
  cases hd : r.deleted <;> simp [toWrite, hd]

theorem CleanBlock.same (h : CleanBlock ws (rs.map toWrite)) {r t : Record} (hr : r ∈ rs) (ht : t ∈ rs)
    (hkey : t.key = r.key) : t.deleted = r.deleted := by
  have := (h (toWrite r) (List.mem_map_of_mem hr)).1 (toWrite t) (List.mem_map_of_mem ht) hkey
  rw [isSome_toWrite, isSome_toWrite] at this
  exact Bool.not_inj this

theorem CleanBlock.noPutAfterDelete (h : CleanBlock ws (rs.map toWrite)) : NoPutAfterDelete rs := by
  intro t ht htomb r hlast
  obtain ⟨hr, hkey⟩ := lastOf_mem hlast
  rw [← h.same hr ht hkey.symm, htomb]

theorem share_append_of_put {key : Bytes32} {r : Record} (hlast : lastOf Record.key key rs = some r)
    (hput : r.deleted = false) : share blake3 (ws ++ rs.map toWrite) key = key ^^^ blake3 r.value := by
  have : liveValue (ws ++ rs.map toWrite) key = some r.value := by
    rw [liveValue, lastOf_append, lastOf_toWrite, hlast]
    simp [toWrite, hput]
  rw [share, this]

theorem share_append_of_delete {key : Bytes32} {r : Record} (hlast : lastOf Record.key key rs = some r)
    (hdel : r.deleted = true) : share blake3 (ws ++ rs.map toWrite) key = 0 := by
  have : liveValue (ws ++ rs.map toWrite) key = none := by
    rw [liveValue, lastOf_append, lastOf_toWrite, hlast]
    simp [toWrite, hdel]
  rw [share, this]

theorem share_append_of_none {key : Bytes32} (hlast : lastOf Record.key key rs = none) :
    share blake3 (ws ++ rs.map toWrite) key = share blake3 ws key := by
  unfold share liveValue
  rw [lastOf_append, lastOf_toWrite, hlast]
  rfl

/-- **In a clean block the fold takes out what a key contributed and brings in what it should.** -/
theorem change_of_clean (hindex : Indexed blake3 index ws) (h : CleanBlock ws (rs.map toWrite))
    (key : Bytes32) : change blake3 index rs key =
      Xor.of (share blake3 ws key) + Xor.of (share blake3 (ws ++ rs.map toWrite) key) := by
  have hcontribution := contribution_of_indexed hindex key
  unfold change
  rw [hcontribution]
  cases hlast : lastOf Record.key key rs with
  | none =>
    have hno := lastOf_eq_none.mp hlast
    have hput : lastPut rs key = none := lastOf_eq_none.mpr fun r hr => hno r (List.mem_filter.mp hr).1
    have htombs : (tombstones rs).countP (fun r => r.key = key) = 0 := by
      refine List.countP_eq_zero.mpr fun r hr => ?_
      simpa using hno r (List.mem_filter.mp hr).1
    rw [hput, htombs, share_append_of_none hlast, Option.elim_none, zero_nsmul, zero_add, add_self]
  | some r =>
    obtain ⟨hr, hkey⟩ := lastOf_mem hlast
    cases hd : r.deleted with
    | false =>
      -- only puts: the last of them replaces the old contribution
      have hput : lastPut rs key = some r := lastOf_filter hlast (by rw [hd]; rfl)
      have htombs : (tombstones rs).countP (fun t => t.key = key) = 0 := by
        refine List.countP_eq_zero.mpr fun t ht htk => ?_
        obtain ⟨hin, htomb⟩ := List.mem_filter.mp ht
        rw [h.same hr hin ((of_decide_eq_true htk).trans hkey.symm), hd] at htomb
        cases htomb
      rw [hput, htombs, share_append_of_put hlast hd, Option.elim_some, zero_nsmul, zero_add]
    | true =>
      -- only tombstones, an odd number of them if there is something to take out
      have hput : lastPut rs key = none := by
        refine lastOf_eq_none.mpr fun t ht htk => ?_
        obtain ⟨hin, htput⟩ := List.mem_filter.mp ht
        rw [h.same hr hin (htk.trans hkey.symm), hd] at htput
        cases htput
      have hcount : (tombstones rs).countP (fun t => t.key = key) =
          (rs.map toWrite).countP fun y => y.key = (toWrite r).key := by
        rw [List.countP_map, tombstones, List.countP_filter]
        refine List.countP_congr fun t ht => ?_
        have hsame : t.key = key → t.deleted = true :=
          fun htk => (h.same hr ht (htk.trans hkey.symm)).trans hd
        simp only [Bool.and_eq_true, decide_eq_true_eq, Function.comp_apply]
        rw [← hkey] at hsame ⊢
        exact ⟨fun hp => hp.1, fun hp => ⟨hp, hsame hp⟩⟩
      have hnone : (toWrite r).value = none := by simp [toWrite, hd]
      have hodd := (h (toWrite r) (List.mem_map_of_mem hr)).2 hnone
      rw [hput, hcount, share_append_of_delete hlast hd, Option.elim_none, add_zero, of_zero, add_zero]
      cases hlive : liveValue ws key with
      | none =>
        rw [share, hlive]
        exact nsmul_zero _
      | some v =>
        have hkeyw : (toWrite r).key = key := hkey
        rw [hkeyw] at hodd
        exact nsmul_of_odd (by rw [hkeyw]; exact hodd (by rw [hlive]; rfl)) _

theorem accumulate_of_clean (hasc : Ascending rs) (hindex : Indexed blake3 index ws)
    (h : CleanBlock ws (rs.map toWrite)) :
    accumulate blake3 index rs (liveRoot blake3 ws) = liveRoot blake3 (ws ++ rs.map toWrite) := by
  have hof : Xor.of (accumulate blake3 index rs (liveRoot blake3 ws)) =
      Xor.of (liveRoot blake3 (ws ++ rs.map toWrite)) := by
    set S : Finset Bytes32 := ((ws ++ rs.map toWrite).map Write.key).toFinset with hS
    have hin : ∀ x ∈ ws ++ rs.map toWrite, x.key ∈ S :=
      fun x hx => List.mem_toFinset.mpr (List.mem_map_of_mem hx)
    rw [accumulator_fold hasc (S := S), of_liveRoot (S := S), of_liveRoot hin, ← Finset.sum_add_distrib]
    · refine Finset.sum_congr rfl fun key _ => ?_
      rw [change_of_clean hindex h, ← add_assoc, add_self, zero_add]
    · exact fun x hx => hin x (List.mem_append_left _ hx)
    · exact fun r hr => hin (toWrite r) (List.mem_append_right _ (List.mem_map_of_mem hr))
  exact hof

/-! ## Whole histories -/

/-- Writes go to shard 0 and fit their length field, and every committed block is clean. -/
def CleanStep (w : World) (op : Op) : Prop :=
  Plain w op ∧ match op with
    | .commit _ _ => CleanBlock w.journal.committed w.journal.pending
    | _ => True

/-- The database is what its journal says, index and accumulator included. -/
def Rooted (blake3 : Bytes → Bytes32) (w : World) : Prop :=
  ∃ segs done pend, Tracks w segs done pend ∧ Indexed blake3 w.db.dbe.index w.journal.committed ∧
    w.db.dbe.merkle = liveRoot blake3 w.journal.committed

theorem rooted_start (blake3 : Bytes → Bytes32) (cfg : Config) (n : ℕ) :
    Rooted blake3 (start blake3 cfg n) := by
  refine ⟨[], [], [], tracks_start blake3 cfg n, ?_, ?_⟩
  · unfold start
    rw [open_new]
    exact indexed_nil blake3
  · unfold start
    rw [open_new]
    rfl

theorem Rooted.writes {w w' : World} {x : Write} {c : Cache.ValueCache} (h : Rooted blake3 w)
    (hw : Writes w x c w') : Rooted blake3 w' := by
  obtain ⟨segs, done, pend, htracks, hindexed, hroot⟩ := h
  have hkeep : w'.db.dbe.index = w.db.dbe.index ∧ w'.db.dbe.merkle = w.db.dbe.merkle ∧
      w'.journal.committed = w.journal.committed := by
    cases hw <;> exact ⟨rfl, rfl, rfl⟩
  obtain ⟨hi, hm, hj⟩ := hkeep
  rcases htracks.writes hw with h' | ⟨r, -, h'⟩
  · exact ⟨segs, done, pend, h', by rw [hi, hj]; exact hindexed, by rw [hm, hj]; exact hroot⟩
  · exact ⟨segs, done, _, h', by rw [hi, hj]; exact hindexed, by rw [hm, hj]; exact hroot⟩

/-- A commit brings index and accumulator up to date, whether it rotates or not. -/
theorem Rooted.commit {w : World} (h : Rooted blake3 w)
    (hclean : CleanBlock w.journal.committed w.journal.pending) (height : ℕ) (s : Schedule) :
    Rooted blake3 (step blake3 w (.commit height s)) := by
  obtain ⟨segs, done, pend, htracks, hindexed, hroot⟩ := h
  have hasc := ascending_of_lays htracks.holds.pend
  rw [← htracks.pending] at hclean
  have hindex := index_commitFold blake3 w.db.dbe.index w.db.dbe.merkle w.db.gen htracks.holds.pend
  have hacc := acc_commitFold blake3 w.db.dbe.index w.db.dbe.merkle w.db.gen htracks.holds.pend
  have hindexed' : Indexed blake3 (w.folded blake3).index (w.journal.committed ++ w.journal.pending) := by
    rw [← htracks.pending]
    exact indexed_fold hindexed hclean.noPutAfterDelete hindex
  have hroot' : (w.folded blake3).acc = liveRoot blake3 (w.journal.committed ++ w.journal.pending) := by
    rw [← htracks.pending, ← accumulate_of_clean hasc hindexed hclean, ← hroot]
    exact hacc
  cases hrot : w.rotates with
  | false =>
    refine ⟨segs, _, [], htracks.commit blake3 hrot height s, ?_, ?_⟩
    · rw [step_commit htracks hrot, committed_commit]
      exact hindexed'
    · rw [step_commit htracks hrot, committed_commit]
      exact hroot'
  | true =>
    obtain ⟨c, hc⟩ : ∃ c, step blake3 w (.commit height s) = _ := step_commit_rotate htracks hrot height s
    refine ⟨_, [], [], htracks.commitRotate blake3 hrot height s, ?_, ?_⟩
    · rw [hc, committed_commit]
      exact hindexed'
    · rw [hc, committed_commit]
      exact hroot'

theorem Rooted.step {w : World} {op : Op} (h : Rooted blake3 w) (hop : CleanStep w op) :
    Rooted blake3 (step blake3 w op) := by
  cases op with
  | put key value => exact h.writes (writes_put w hop.1)
  | delete key => exact h.writes (writes_delete w key)
  | writerPut shardId key value =>
    rw [step_writerPut hop.1.1]
    exact h.writes (writes_put w hop.1.2)
  | get key =>
    obtain ⟨segs, done, pend, htracks, hindexed, hroot⟩ := h
    obtain ⟨c, -, hc⟩ := snd_get w.db key
    rw [History.step, hc]
    exact ⟨segs, done, pend, htracks.withCache c, hindexed, hroot⟩
  | commit height s => exact h.commit hop.2 height s

/-- **The accumulator is that of the live keys** after every history of clean blocks, and two such
histories with the same live values have the same root. -/
theorem root_of_live (blake3 : Bytes → Bytes32) (cfg : Config) (n : ℕ) (ops : List Op)
    (h : Along (step blake3) CleanStep (start blake3 cfg n) ops) :
    (run (step blake3) (start blake3 cfg n) ops).db.dbe.merkle =
      liveRoot blake3 (run (step blake3) (start blake3 cfg n) ops).journal.committed ∧
    ∀ ops', Along (step blake3) CleanStep (start blake3 cfg n) ops' →
      (∀ key, liveValue (run (step blake3) (start blake3 cfg n) ops).journal.committed key =
        liveValue (run (step blake3) (start blake3 cfg n) ops').journal.committed key) →
      (run (step blake3) (start blake3 cfg n) ops).db.stateRoot blake3 =
        (run (step blake3) (start blake3 cfg n) ops').db.stateRoot blake3 := by
  have hrun : ∀ ops, Along (step blake3) CleanStep (start blake3 cfg n) ops →
      (run (step blake3) (start blake3 cfg n) ops).db.dbe.merkle =
        liveRoot blake3 (run (step blake3) (start blake3 cfg n) ops).journal.committed := by
    intro ops h
    obtain ⟨_, _, _, _, _, hroot⟩ := h.invariant (I := Rooted blake3)
      (fun w op hw hop => hw.step hop) (rooted_start blake3 cfg n)
    exact hroot
  refine ⟨hrun ops h, fun ops' h' hlive => ?_⟩
  rw [DonaDbX.stateRoot, DonaDbX.stateRoot, hrun ops h, hrun ops' h', liveRoot_congr hlive]

def inTurn : Schedule := ⟨id, 0⟩

def twoBlocks : List Op := [.put 1 [7], .put 2 [8], .commit 1 inTurn, .delete 2, .commit 2 inTurn]

theorem root_of_two_blocks :
    (run (step sampleHash) (start sampleHash smallConfig 1) twoBlocks).db.dbe.merkle =
      liveRoot sampleHash (run (step sampleHash) (start sampleHash smallConfig 1) twoBlocks).journal.committed ∧
    (run (step sampleHash) (start sampleHash smallConfig 1) twoBlocks).db.stateRoot sampleHash =
      (run (step sampleHash) (start sampleHash smallConfig 1)
        [.put 1 [7], .commit 5 inTurn]).db.stateRoot sampleHash := by
  have hshort : ∀ b : UInt8, [b].length < 2 ^ 32 := by simp
  have hclean : Along (step sampleHash) CleanStep (start sampleHash smallConfig 1) twoBlocks :=
    ⟨⟨hshort 7, trivial⟩, ⟨hshort 8, trivial⟩, ⟨trivial, by decide +kernel⟩, ⟨trivial, trivial⟩,
      ⟨trivial, by decide +kernel⟩, trivial⟩
  have hclean' : Along (step sampleHash) CleanStep (start sampleHash smallConfig 1)
      [.put 1 [7], .commit 5 inTurn] :=
    ⟨⟨hshort 7, trivial⟩, ⟨trivial, by decide +kernel⟩, trivial⟩
  obtain ⟨hroot, hlive⟩ := root_of_live sampleHash smallConfig 1 twoBlocks hclean
  refine ⟨hroot, hlive _ hclean' fun key => ?_⟩
  have hleft : (run (step sampleHash) (start sampleHash smallConfig 1) twoBlocks).journal.committed =
      [⟨1, some [7]⟩, ⟨2, some [8]⟩, ⟨2, none⟩] := by decide +kernel
  have hright : (run (step sampleHash) (start sampleHash smallConfig 1)
      [.put 1 [7], .commit 5 inTurn]).journal.committed = [⟨1, some [7]⟩] := by decide +kernel
  rw [hleft, hright]
  by_cases h1 : (1 : Bytes32) = key
  · subst h1
    decide +kernel
  · by_cases h2 : (2 : Bytes32) = key
    · subst h2
      decide +kernel
    · rw [liveValue_eq_none, liveValue_eq_none]
      · simpa using h1
      · simpa using ⟨h1, h2⟩

/-- The writes of the history go to shard 0 and no commit rotates. -/
def OneSegment (w : World) : Op → Prop
  | .writerPut shardId _ _ => shardId % (w.db.dbe.rest.length + 1) = 0
  | .commit _ _ => w.rotates = false
  | _ => True

/-- A key that is put and deleted in one block leaves its contribution in the root. -/
theorem put_and_delete_leaves_root : ¬ ∀ (blake3 : Bytes → Bytes32) (cfg : Config) (n : ℕ) (ops : List Op),
    Along (step blake3) OneSegment (start blake3 cfg n) ops →
      (run (step blake3) (start blake3 cfg n) ops).db.dbe.merkle =
        liveRoot blake3 (run (step blake3) (start blake3 cfg n) ops).journal.committed := by
  intro h
  have hroot := h sampleHash smallConfig 1 [.put 1 [7], .delete 1, .commit 1 inTurn]
    ⟨trivial, trivial, rfl, trivial⟩
  revert hroot
  decide +kernel

end TruthLinked.DonaDb.Accumulator
