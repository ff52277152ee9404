import TruthLinked.DonaDb.Log
import TruthLinked.Lib.Keyed
import TruthLinked.Lib.SortKey
import TruthLinked.Lib.Table
import TruthLinked.Lib.XorGroup

/-! # The fold of a block into the index

`ShardIndex` of `index.rs` and `CommutativeLog::commit_fold_until`. The records between the committed
offset and the end of the block are parsed, split into puts and tombstones and worked off in two passes:
first every tombstone, then the last put of every key. The accumulator changes by one summand per record
of the first pass and two per key of the second (`accumulator_fold`); the entry of a key after the fold
is read off the last put and the tombstones of the key (`index_fold`). -/

namespace TruthLinked.DonaDb.Fold

open Core.Types Core.Bytes Lib.Memory Lib.SortKey Lib Lib.Table Lib.XorGroup DonaDb.Log

variable {m : ℕ → UInt8} {a b : ℕ}

/-- `Entry` of the index. -/
structure Entry where
  key : Bytes32
  offset : ℕ
  writeCount : UInt32
  logId : ℕ
  deleted : Bool
  valueHash : Bytes32
  deriving DecidableEq

/-- `ShardIndex`: the 256 shards hold disjoint keys and are one map here. -/
abbrev ShardIndex := Map Bytes32 Entry

/-- `ShardIndex::count`. -/
def count (index : ShardIndex) (key : Bytes32) : UInt32 := (index[key]?.map Entry.writeCount).getD 0

/-- `Shard::upsert`. -/
def upsert (index : ShardIndex) (key : Bytes32) (offset : ℕ) (writeCount : UInt32) (logId : ℕ)
    (deleted : Bool) (valueHash : Bytes32) : ShardIndex :=
  index.insert key { key, offset, writeCount, logId, deleted, valueHash }

/-- `ShardBatchEntry`: an upsert that the fold has put off. -/
structure ShardBatchEntry where
  key : Bytes32
  valueHash : Bytes32
  offset : ℕ
  writeCount : UInt32
  deleted : Bool

/-- The contribution of the key's committed value taken out of the accumulator. -/
def xorOut (index : ShardIndex) (key acc : Bytes32) : Bytes32 :=
  match index[key]? with
  | some old => if old.deleted then acc else acc ^^^ (key ^^^ old.valueHash)
  | none => acc

section
variable (blake3 : Bytes → Bytes32)

/-- `hashed`: key, value hash and offset of every put, by offset. -/
def hashed (rs : List Record) : List (Bytes32 × Bytes32 × ℕ) :=
  sortByKey (fun h : Bytes32 × Bytes32 × ℕ => h.2.2)
    ((rs.filter fun r => !r.deleted).map fun r => (r.key, blake3 r.value, r.offset))

/-- `latest`: value hash and offset of the last put of every key. -/
def latest (rs : List Record) : Map Bytes32 (Bytes32 × ℕ) :=
  (hashed blake3 rs).foldl (fun m h => m.insert h.1 h.2) ∅

/-- `per_block_count`. -/
def perBlockCount (rs : List Record) (key : Bytes32) : UInt32 :=
  .ofNat ((hashed blake3 rs).countP fun h => h.1 = key)

end

/-- The records of the first pass. -/
def tombstones (rs : List Record) : List Record := rs.filter Record.deleted

/-- The upserts of the first pass. -/
def tombstoneBatch (index : ShardIndex) (tombs : List Record) : List ShardBatchEntry :=
  tombs.map fun r => ⟨r.key, 0, r.offset, count index r.key + 1, true⟩

/-- The offset a key had, `0` if it had none. -/
def oldOffset (index : ShardIndex) (key : Bytes32) : ℕ := (index[key]?.map Entry.offset).getD 0

/-- The previous offset patched into the header of the record at `off`. -/
def patch (index : ShardIndex) (m : ℕ → UInt8) (p : Bytes32 × Bytes32 × ℕ) : ℕ → UInt8 :=
  if 0 < oldOffset index p.1 then write m (p.2.2 + 8) (leBytes 8 (oldOffset index p.1)) else m

/-- The upserts of the second pass. -/
def putBatch (blake3 : Bytes → Bytes32) (index : ShardIndex) (rs : List Record) :
    List ShardBatchEntry :=
  (latest blake3 rs).toList.map fun (key, newVh, off) =>
    ⟨key, newVh, off, count index key + perBlockCount blake3 rs key,
      (tombstones rs).any fun r => r.key = key⟩

/-- The accumulator after both passes. -/
def accumulate (blake3 : Bytes → Bytes32) (index : ShardIndex) (rs : List Record) (acc : Bytes32) :
    Bytes32 :=
  let acc := (tombstones rs).foldl (fun acc r => xorOut index r.key acc) acc
  (latest blake3 rs).toList.foldl (fun acc p => xorOut index p.1 acc ^^^ (p.1 ^^^ p.2.1)) acc

/-- The index after the shard upserts: a key's tombstones come before its put. -/
def applyBatches (index : ShardIndex) (logId : ℕ) (batch : List ShardBatchEntry) : ShardIndex :=
  batch.foldl (fun index b => upsert index b.key b.offset b.writeCount logId b.deleted b.valueHash) index

/-- The log, the index and the accumulator after a fold. -/
structure Folded where
  log : CommutativeLog
  index : ShardIndex
  acc : Bytes32

/-- `CommutativeLog::commit_fold_until`. The loop over the hash map `latest` is taken in the order of
the keys; its steps concern different keys and records. -/
def commitFoldUntil (blake3 : Bytes → Bytes32) (log : CommutativeLog) (index : ShardIndex)
    (prevAcc : Bytes32) (endOffset logId : ℕ) : Folded :=
  if endOffset ≤ log.committedOffset then ⟨log, index, prevAcc⟩
  else
    let rs := records log.mmap log.committedOffset endOffset
    let mmap := (latest blake3 rs).toList.foldl (patch index) log.mmap
    { log := { log with mmap := write mmap 0 (leBytes 8 endOffset), committedOffset := endOffset }
      index := applyBatches index logId (tombstoneBatch index (tombstones rs) ++ putBatch blake3 index rs)
      acc := accumulate blake3 index rs prevAcc }

/-! ## What a fold computes -/

/-- The last put of a key. -/
def lastPut (rs : List Record) (key : Bytes32) : Option Record :=
  lastOf Record.key key (rs.filter fun r => !r.deleted)

/-- The last tombstone of a key. -/
def lastTombstone (rs : List Record) (key : Bytes32) : Option Record :=
  lastOf Record.key key (tombstones rs)

/-- The records stand in the order of their offsets. -/
def Ascending (rs : List Record) : Prop := rs.Pairwise fun r r' => r.offset < r'.offset

theorem ascending_of_lays {rs : List Record} (h : Lays m a rs b) :
    Ascending rs := by
  refine h.pairwise.imp ?_
  intro r r' hrr'
  have := r.total_pos
  omega

section
variable {blake3 : Bytes → Bytes32} {index : ShardIndex} {rs : List Record} {logId : ℕ}

/-- The sort by offset does nothing to records that were parsed in order. -/
theorem hashed_eq (h : Ascending rs) : hashed blake3 rs =
    (rs.filter fun r => !r.deleted).map fun r => (r.key, blake3 r.value, r.offset) := by
  refine sortByKey_eq_self_iff.mpr (List.pairwise_map.mpr ?_)
  refine (List.Pairwise.filter _ h).imp ?_
  intro r r' hlt
  rw [keyLe, Nat.isLE_compare]
  exact hlt.le

theorem getElem?_latest (h : Ascending rs) (key : Bytes32) : (latest blake3 rs)[key]? =
    (lastPut rs key).map fun r => (blake3 r.value, r.offset) := by
  have hmap := lastOf_map (fun x : Bytes32 × Bytes32 × ℕ => x.1) key
    (fun r : Record => (r.key, blake3 r.value, r.offset)) (rs.filter fun r => !r.deleted)
  unfold latest
  rw [getElem?_foldl_insert, hashed_eq h, hmap, Option.map_map, Std.ExtTreeMap.getElem?_empty,
    Option.or_none]
  rfl

/-- The entry of a key after a fold. -/
def entryAfter (blake3 : Bytes → Bytes32) (index : ShardIndex) (logId : ℕ) (rs : List Record)
    (key : Bytes32) : Option Entry :=
  match lastPut rs key, lastTombstone rs key with
  | some r, t => some ⟨key, r.offset, count index key + perBlockCount blake3 rs key, logId, t.isSome,
      blake3 r.value⟩
  | none, some r => some ⟨key, r.offset, count index key + 1, logId, true, 0⟩
  | none, none => index[key]?

theorem any_tombstones (key : Bytes32) :
    ((tombstones rs).any fun r => r.key = key) = (lastTombstone rs key).isSome := by
  rw [Bool.eq_iff_iff, List.any_eq_true, ← Option.ne_none_iff_isSome, ne_eq, lastTombstone, lastOf_eq_none]
  simp

theorem lastOf_putBatch (h : Ascending rs) (key : Bytes32) :
    lastOf ShardBatchEntry.key key (putBatch blake3 index rs) =
      (lastPut rs key).map fun r => ⟨key, blake3 r.value, r.offset,
        count index key + perBlockCount blake3 rs key, (lastTombstone rs key).isSome⟩ := by
  have hpick := Keyed.pick_toList (latest blake3 rs) key
  unfold putBatch
  rw [lastOf_map]
  change ((Keyed.pick Prod.fst key _).getLast?).map _ = _
  rw [hpick, Keyed.slot, getElem?_latest h]
  cases lastPut rs key with
  | none => rfl
  | some r =>
    rw [← any_tombstones]
    rfl

/-- **The entry of a key after a fold**, from the last put and the last tombstone of the key. -/
theorem index_fold (h : Ascending rs) (key : Bytes32) :
    (applyBatches index logId
      (tombstoneBatch index (tombstones rs) ++ putBatch blake3 index rs))[key]? =
      entryAfter blake3 index logId rs key := by
  have hset := getElem?_foldl_insert index key ShardBatchEntry.key
    (fun b => (⟨b.key, b.offset, b.writeCount, logId, b.deleted, b.valueHash⟩ : Entry))
    (tombstoneBatch index (tombstones rs) ++ putBatch blake3 index rs)
  have htomb : lastOf ShardBatchEntry.key key (tombstoneBatch index (tombstones rs)) =
      (lastTombstone rs key).map fun r => ⟨r.key, 0, r.offset, count index r.key + 1, true⟩ :=
    lastOf_map _ _ _ _
  unfold applyBatches upsert
  rw [hset, lastOf_append, lastOf_putBatch h, htomb]
  unfold entryAfter
  cases lastPut rs key with
  | some r => rfl
  | none =>
    cases ht : lastTombstone rs key with
    | none => rfl
    | some t =>
      obtain rfl : t.key = key := (lastOf_mem ht).2
      rfl

/-- What the committed value of a key contributes to the accumulator. -/
def contribution (index : ShardIndex) (key : Bytes32) : Xor 256 :=
  match index[key]? with
  | some e => if e.deleted then 0 else Xor.of (key ^^^ e.valueHash)
  | none => 0

theorem of_xorOut (index : ShardIndex) (key acc : Bytes32) :
    Xor.of (xorOut index key acc) = Xor.of acc + contribution index key := by
  unfold xorOut contribution
  cases index[key]? with
  | none => exact (add_zero _).symm
  | some e =>
    cases he : e.deleted with
    | true => simp [he]
    | false => simp [he, of_xor]

/-- What a fold adds to the accumulator for one key: every tombstone takes the old contribution out, and
so does the last put, which also brings in its own. -/
def change (blake3 : Bytes → Bytes32) (index : ShardIndex) (rs : List Record) (key : Bytes32) : Xor 256 :=
  ((tombstones rs).countP fun r => r.key = key) • contribution index key +
    (lastPut rs key).elim 0 fun r => contribution index key + Xor.of (key ^^^ blake3 r.value)

theorem of_foldl {α : Type*} {step : Bytes32 → α → Bytes32} {f : α → Xor 256}
    (h : ∀ acc x, Xor.of (step acc x) = Xor.of acc + f x) (l : List α) (acc : Bytes32) :
    Xor.of (l.foldl step acc) = Xor.of acc + (l.map f).sum := by
  induction l generalizing acc with
  | nil => rw [List.foldl_nil, List.map_nil, List.sum_nil, add_zero]
  | cons x l ih => rw [List.foldl_cons, ih, h, List.map_cons, List.sum_cons, add_assoc]

/-- **The accumulator after a fold.** -/
theorem accumulator_fold (h : Ascending rs) {S : Finset Bytes32} (hS : ∀ r ∈ rs, r.key ∈ S)
    (acc : Bytes32) : Xor.of (accumulate blake3 index rs acc) =
      Xor.of acc + ∑ key ∈ S, change blake3 index rs key := by
  have htombs : ((tombstones rs).map fun r => contribution index r.key).sum =
      ∑ key ∈ S, ((tombstones rs).countP fun r => r.key = key) • contribution index key := by
    have hcount := Finset.sum_list_map_count ((tombstones rs).map Record.key) (contribution index)
    rw [List.map_map] at hcount
    have hsub : ((tombstones rs).map Record.key).toFinset ⊆ S := by
      intro key hkey
      obtain ⟨r, hr, rfl⟩ := List.mem_map.mp (List.mem_toFinset.mp hkey)
      exact hS r (List.mem_filter.mp hr).1
    rw [Finset.sum_subset hsub] at hcount
    · refine hcount.trans (Finset.sum_congr rfl fun key _ => ?_)
      rw [List.count, List.countP_map]
      rfl
    · intro key _ hkey
      rw [List.count_eq_zero_of_not_mem fun hin => hkey (List.mem_toFinset.mpr hin), zero_nsmul]
  have hputs : ((latest blake3 rs).toList.map fun p =>
      contribution index p.1 + Xor.of (p.1 ^^^ p.2.1)).sum =
        ∑ key ∈ S, (lastPut rs key).elim 0 fun r =>
          contribution index key + Xor.of (key ^^^ blake3 r.value) := by
    rw [sum_toList (S := S)]
    · refine Finset.sum_congr rfl fun key _ => ?_
      rw [getElem?_latest h]
      cases lastPut rs key <;> rfl
    · intro key hkey
      rw [Std.ExtTreeMap.mem_iff_isSome_getElem?, getElem?_latest h, Option.isSome_map] at hkey
      obtain ⟨r, hr⟩ := Option.isSome_iff_exists.mp hkey
      obtain ⟨hin, rfl⟩ := lastOf_mem hr
      exact hS r (List.mem_filter.mp hin).1
  unfold accumulate change
  rw [of_foldl (f := fun p => contribution index p.1 + Xor.of (p.1 ^^^ p.2.1)),
    of_foldl (f := fun r => contribution index r.key), htombs, hputs, Finset.sum_add_distrib, add_assoc]
  · intro acc r
    exact of_xorOut index r.key acc
  · intro acc p
    rw [of_xor, of_xorOut, add_assoc]

/-! ## What a fold leaves in the log -/

/-- A record with the previous offsets that the second pass patches in. -/
def patched (index : ShardIndex) (l : List (Bytes32 × Bytes32 × ℕ)) (r : Record) : Record :=
  l.foldl (fun r p => if r.offset = p.2.2 ∧ 0 < oldOffset index p.1 then
    { r with prevOffset := oldOffset index p.1 % 2 ^ 64 } else r) r

theorem patched_cons (index : ShardIndex) (p : Bytes32 × Bytes32 × ℕ)
    (l : List (Bytes32 × Bytes32 × ℕ)) (r : Record) :
    patched index (p :: l) r = patched index l (patched index [p] r) := rfl

theorem patched_eq (index : ShardIndex) (l : List (Bytes32 × Bytes32 × ℕ)) (r : Record) :
    patched index l r = { r with prevOffset := (patched index l r).prevOffset } := by
  induction l generalizing r with
  | nil => rfl
  | cons p l ih =>
    rw [patched_cons, ih]
    unfold patched
    rw [List.foldl_cons, List.foldl_nil]
    split <;> rfl

section
variable (index : ShardIndex) (l : List (Bytes32 × Bytes32 × ℕ)) (r : Record)

@[simp] theorem patched_offset : (patched index l r).offset = r.offset := by rw [patched_eq]

@[simp] theorem patched_key : (patched index l r).key = r.key := by rw [patched_eq]

@[simp] theorem patched_deleted : (patched index l r).deleted = r.deleted := by rw [patched_eq]

@[simp] theorem patched_height : (patched index l r).height = r.height := by rw [patched_eq]

@[simp] theorem patched_value : (patched index l r).value = r.value := by rw [patched_eq]

end

theorem lays_write_prev {off p : ℕ} (h : Lays m a rs b) (hoff : ∃ r ∈ rs, r.offset = off) :
    Lays (write m (off + 8) (leBytes 8 p)) a
      (rs.map fun r => if r.offset = off then { r with prevOffset := p % 2 ^ 64 } else r) b := by
  induction rs generalizing a with
  | nil =>
    obtain ⟨r, hr, -⟩ := hoff
    cases hr
  | cons q rs ih =>
    have hq := decode_offset h.1
    have htotal : chdr + 32 ≤ q.total := by
      unfold Record.total
      omega
    unfold chdr at htotal
    have hlen : (leBytes 8 p).length = 8 := length_leBytes 8 p
    by_cases hqo : q.offset = off
    · -- the record itself; what follows starts behind the patched bytes
      obtain rfl : a = off := hq.symm.trans hqo
      rw [List.map_cons, if_pos hqo]
      have hrest : (rs.map fun r => if r.offset = a then { r with prevOffset := p % 2 ^ 64 } else r) = rs := by
        refine (List.map_congr_left fun r hr => ?_).trans (List.map_id rs)
        have := (h.2.decode hr).2.1
        exact if_neg (by omega)
      rw [hrest]
      exact ⟨decode_patch p h.1, h.2.congr (agree_write_above (by omega)).symm⟩
    · have hin : ∃ r ∈ rs, r.offset = off := by
        obtain ⟨r, hr, hro⟩ := hoff
        rcases List.mem_cons.mp hr with rfl | hr
        · exact absurd hro hqo
        · exact ⟨r, hr, hro⟩
      obtain ⟨r, hr, hro⟩ := hin
      have hle := (h.2.decode hr).2.1
      rw [List.map_cons, if_neg hqo]
      exact ⟨decode_congr h.1 (agree_write_below (by omega)).symm, ih h.2 ⟨r, hr, hro⟩⟩

/-- **The second pass patches the records it concerns and leaves the rest.** -/
theorem lays_patches (index : ShardIndex) (h : Lays m a rs b) {l : List (Bytes32 × Bytes32 × ℕ)}
    (hl : ∀ p ∈ l, ∃ r ∈ rs, r.offset = p.2.2) :
    Lays (l.foldl (patch index) m) a (rs.map (patched index l)) b := by
  induction l generalizing m rs with
  | nil =>
    have hid : rs.map (patched index []) = rs := List.map_id rs
    rw [hid]
    exact h
  | cons p l ih =>
    obtain ⟨hp, hrest⟩ := List.forall_mem_cons.mp hl
    have hone : Lays (patch index m p) a (rs.map (patched index [p])) b := by
      unfold patch patched
      simp only [List.foldl_cons, List.foldl_nil]
      by_cases hpos : 0 < oldOffset index p.1
      · simp only [hpos, and_true, if_true]
        exact lays_write_prev h hp
      · simp only [hpos, and_false, if_false, List.map_id']
        exact h
    have hmap : rs.map (patched index (p :: l)) = (rs.map (patched index [p])).map (patched index l) := by
      rw [List.map_map]
      rfl
    rw [List.foldl_cons, hmap]
    refine ih hone fun q hq => ?_
    obtain ⟨r, hr, hro⟩ := hrest q hq
    exact ⟨_, List.mem_map_of_mem hr, by rw [patched_offset, hro]⟩

theorem agree_patches (index : ShardIndex) {l : List (Bytes32 × Bytes32 × ℕ)} {c : ℕ}
    (hl : ∀ p ∈ l, c ≤ p.2.2) : Agree (l.foldl (patch index) m) m a c := by
  induction l generalizing m with
  | nil => exact .refl _ _ _
  | cons p l ih =>
    obtain ⟨hp, hrest⟩ := List.forall_mem_cons.mp hl
    rw [List.foldl_cons]
    refine (ih hrest).trans ?_
    unfold patch
    split
    · exact agree_write_below (by omega)
    · exact .refl _ _ _

theorem mem_latest (h : Ascending rs) {p : Bytes32 × Bytes32 × ℕ} (hp : p ∈ (latest blake3 rs).toList) :
    ∃ r, lastPut rs p.1 = some r ∧ p.2 = (blake3 r.value, r.offset) := by
  rw [Std.ExtTreeMap.mem_toList_iff_getElem?_eq_some, getElem?_latest h] at hp
  obtain ⟨r, hr, hpr⟩ := Option.map_eq_some_iff.mp hp
  exact ⟨r, hr, hpr.symm⟩

theorem lastPut_mem {key : Bytes32} {r : Record} (h : lastPut rs key = some r) :
    r ∈ rs ∧ r.deleted = false ∧ r.key = key := by
  obtain ⟨hin, hkey⟩ := lastOf_mem h
  obtain ⟨hrs, hput⟩ := List.mem_filter.mp hin
  exact ⟨hrs, by simpa using hput, hkey⟩

end

/-! ## The log before and after -/

section
variable (blake3 : Bytes → Bytes32) {log : CommutativeLog} {done pend : List Record} (index : ShardIndex)
  (acc : Bytes32) (logId : ℕ)

theorem commitFoldUntil_cases (h : Lays log.mmap log.committedOffset pend log.writeOffset) :
    (pend = [] ∧ commitFoldUntil blake3 log index acc log.writeOffset logId = ⟨log, index, acc⟩) ∨
    commitFoldUntil blake3 log index acc log.writeOffset logId =
      { log := { log with
          mmap := write ((latest blake3 pend).toList.foldl (patch index) log.mmap) 0
            (leBytes 8 log.writeOffset)
          committedOffset := log.writeOffset }
        index := applyBatches index logId
          (tombstoneBatch index (tombstones pend) ++ putBatch blake3 index pend)
        acc := accumulate blake3 index pend acc } := by
  unfold commitFoldUntil
  split
  case isTrue hle =>
    refine .inl ⟨?_, rfl⟩
    cases pend with
    | nil => rfl
    | cons r rs =>
      have h1 := h.2.le
      have h2 := r.total_pos
      omega
  case isFalse =>
    rw [records_of_lays h]
    exact .inr rfl

theorem index_commitFold (h : Lays log.mmap log.committedOffset pend log.writeOffset) (key : Bytes32) :
    (commitFoldUntil blake3 log index acc log.writeOffset logId).index[key]? =
      entryAfter blake3 index logId pend key := by
  rcases commitFoldUntil_cases blake3 index acc logId h with
    ⟨rfl, heq⟩ | heq
  · rw [heq]
    rfl
  · rw [heq]
    exact index_fold (ascending_of_lays h) key

theorem acc_commitFold (h : Lays log.mmap log.committedOffset pend log.writeOffset) :
    (commitFoldUntil blake3 log index acc log.writeOffset logId).acc =
      accumulate blake3 index pend acc := by
  rcases commitFoldUntil_cases blake3 index acc logId h with
    ⟨rfl, heq⟩ | heq
  · have hnil : (latest blake3 []).toList = [] := Std.ExtTreeMap.toList_eq_nil_iff.mpr rfl
    rw [heq, accumulate, hnil]
    rfl
  · rw [heq]

theorem commitFoldUntil_frontier (blake3 : Bytes → Bytes32) (log : CommutativeLog) (index : ShardIndex)
    (acc : Bytes32) (endOff logId : ℕ) :
    (commitFoldUntil blake3 log index acc endOff logId).log.writeOffset = log.writeOffset ∧
    (commitFoldUntil blake3 log index acc endOff logId).log.capacity = log.capacity := by
  unfold commitFoldUntil
  split <;> exact ⟨rfl, rfl⟩

/-- The log consists of the records `done`, already folded, and `pend`, not folded yet. -/
structure Holds (log : CommutativeLog) (done pend : List Record) : Prop where
  done : Lays log.mmap 8 done log.committedOffset
  pend : Lays log.mmap log.committedOffset pend log.writeOffset
  room : log.writeOffset ≤ log.capacity

/-- The records of a block after its fold. -/
def foldedRecords (blake3 : Bytes → Bytes32) (index : ShardIndex) (rs : List Record) : List Record :=
  rs.map (patched index (latest blake3 rs).toList)

theorem patches_inside (h : Lays log.mmap log.committedOffset pend log.writeOffset) :
    ∀ p ∈ (latest blake3 pend).toList, ∃ r ∈ pend, r.offset = p.2.2 := by
  intro p hp
  obtain ⟨r, hr, hpr⟩ := mem_latest (ascending_of_lays h) hp
  exact ⟨r, (lastPut_mem hr).1, by rw [hpr]⟩

theorem lays_commitFold (h : Lays log.mmap log.committedOffset pend log.writeOffset)
    (hstart : 8 ≤ log.committedOffset) :
    Lays (commitFoldUntil blake3 log index acc log.writeOffset logId).log.mmap log.committedOffset
      (foldedRecords blake3 index pend) log.writeOffset := by
  rcases commitFoldUntil_cases blake3 index acc logId h with ⟨rfl, heq⟩ | heq
  · rw [heq]
    exact h
  · have hheader : (leBytes 8 log.writeOffset).length = 8 := length_leBytes 8 _
    rw [heq]
    exact (lays_patches index h (patches_inside blake3 h)).congr
      (agree_write_above (c := 0) (l := leBytes 8 log.writeOffset) (by omega)).symm

/-- Behind its header the log is untouched in front of the block. -/
theorem agree_commitFold (h : Lays log.mmap log.committedOffset pend log.writeOffset) :
    Agree log.mmap (commitFoldUntil blake3 log index acc log.writeOffset logId).log.mmap 8
      log.committedOffset := by
  rcases commitFoldUntil_cases blake3 index acc logId h with ⟨rfl, heq⟩ | heq
  · rw [heq]
    exact .refl _ _ _
  · have hheader : (leBytes 8 log.writeOffset).length = 8 := length_leBytes 8 _
    have hbelow : ∀ p ∈ (latest blake3 pend).toList, log.committedOffset ≤ p.2.2 := by
      intro p hp
      obtain ⟨r, hr, hro⟩ := patches_inside blake3 h p hp
      rw [← hro]
      exact (h.decode hr).2.1
    rw [heq]
    exact ((agree_write_above (c := 0) (l := leBytes 8 log.writeOffset) (by omega)).trans
      (agree_patches index hbelow)).symm

theorem frontier_commitFold (h : Lays log.mmap log.committedOffset pend log.writeOffset) :
    (commitFoldUntil blake3 log index acc log.writeOffset logId).log.writeOffset = log.writeOffset ∧
    (commitFoldUntil blake3 log index acc log.writeOffset logId).log.committedOffset = log.writeOffset ∧
    (commitFoldUntil blake3 log index acc log.writeOffset logId).log.capacity = log.capacity := by
  rcases commitFoldUntil_cases blake3 index acc logId h with
    ⟨rfl, heq⟩ | heq
  · rw [heq]
    exact ⟨rfl, h, rfl⟩
  · rw [heq]
    exact ⟨rfl, rfl, rfl⟩

/-- **The log after a fold**: the records of the block have joined the others. -/
theorem holds_commitFold (h : Holds log done pend) :
    Holds (commitFoldUntil blake3 log index acc log.writeOffset logId).log
      (done ++ foldedRecords blake3 index pend) [] := by
  obtain ⟨hwrite, hcommitted, hcapacity⟩ := frontier_commitFold blake3 index acc logId h.pend
  have hfront := h.done.congr (agree_commitFold blake3 index acc logId h.pend)
  have hback := lays_commitFold blake3 index acc logId h.pend h.done.le
  refine ⟨?_, ?_, ?_⟩
  · rw [hcommitted]
    exact hfront.append hback
  · rw [hcommitted, hwrite]
    rfl
  · rw [hwrite, hcapacity]
    exact h.room

end

end TruthLinked.DonaDb.Fold
