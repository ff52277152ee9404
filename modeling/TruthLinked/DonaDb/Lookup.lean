import TruthLinked.DonaDb.History

/-! # Reading the latest value

`get` asks the index, the cache, the active log and the sealed segments in turn. After a commit it should
give the value of the last committed put. It does (`get_of_good`) as long as no block puts a key after
deleting it, no value too long for the cache is put over one that is cached, and whenever a segment is
sealed the scan that stops at its first tombstone still comes to the last put of every live key. -/

namespace TruthLinked.DonaDb.Lookup

open Core.Types Lib.Run Lib.Table DonaDb.Log DonaDb.Fold DonaDb.Cache DonaDb.Block DonaDb.Engine
open DonaDb.History

variable {op : Op} {c : ValueCache} {index : ShardIndex} {blake3 : Bytes → Bytes32} {w w' : World}
  {segs : List (List Record)} {done pend rs : List Record} {key : Bytes32} {r : Record}

/-! ## The cache -/

/-- What the fold thread does to the cache for a write. -/
def cacheWrite (c : ValueCache) (x : Write) : ValueCache :=
  match x.value with
  | none => c.remove x.key
  | some v => if v.length ≤ 8192 then c.insert x.key v else c

theorem cacheRecord_eq (c : ValueCache) (r : Record) : cacheRecord c r = cacheWrite c (toWrite r) := by
  unfold cacheRecord cacheWrite toWrite
  cases r.deleted <;> rfl

theorem foldl_cacheRecord (c : ValueCache) (rs : List Record) :
    rs.foldl cacheRecord c = (rs.map toWrite).foldl cacheWrite c := by
  rw [List.foldl_map]
  congr 1
  funext c r
  exact cacheRecord_eq c r

/-- No value above 8 KiB is put on a key for which the cache holds another. -/
def NoStale : ValueCache → List Write → Prop
  | _, [] => True
  | c, x :: xs => (∀ v, x.value = some v → 8192 < v.length → c.held x.key = none) ∧ NoStale (cacheWrite c x) xs

/-- The cache holds nothing but live values. -/
def CacheOk (c : ValueCache) (ws : List Write) : Prop := ∀ k v, c.held k = some v → liveValue ws k = some v

theorem noStale_of_short {xs : List Write} (h : ∀ x ∈ xs, ∀ v ∈ x.value, v.length ≤ 8192) (c : ValueCache) :
    NoStale c xs := by
  induction xs generalizing c with
  | nil => trivial
  | cons x xs ih =>
    obtain ⟨hx, hxs⟩ := List.forall_mem_cons.mp h
    refine ⟨fun v hv hlong => ?_, ih hxs _⟩
    have := hx v hv
    omega

theorem liveValue_concat (ws : List Write) (x : Write) (k : Bytes32) :
    liveValue (ws ++ [x]) k = if x.key = k then x.value else liveValue ws k := by
  unfold liveValue
  rw [lastOf_concat]
  split <;> rfl

theorem cacheOk_write {ws : List Write} {x : Write} (h : CacheOk c ws)
    (hstale : ∀ v, x.value = some v → 8192 < v.length → c.held x.key = none) :
    CacheOk (cacheWrite c x) (ws ++ [x]) := by
  intro k v hk
  rw [liveValue_concat]
  unfold cacheWrite at hk
  cases hx : x.value with
  | none =>
    rw [hx] at hk
    obtain ⟨hne, hk⟩ := held_remove hk
    rw [if_neg (Ne.symm hne)]
    exact h k v hk
  | some u =>
    rw [hx] at hk
    dsimp only at hk
    split at hk
    · rcases held_insert hk with ⟨rfl, rfl⟩ | ⟨hne, hk⟩
      · rw [if_pos rfl]
      · rw [if_neg (Ne.symm hne)]
        exact h k v hk
    case isFalse hlong =>
      have hnone := hstale u hx (by omega)
      have hne : x.key ≠ k := by
        rintro rfl
        rw [hnone] at hk
        cases hk
      rw [if_neg hne]
      exact h k v hk

theorem cacheOk_block {ws xs : List Write} (h : CacheOk c ws) (hstale : NoStale c xs) :
    CacheOk (xs.foldl cacheWrite c) (ws ++ xs) := by
  induction xs generalizing c ws with
  | nil =>
    rw [List.append_nil]
    exact h
  | cons x xs ih =>
    have := ih (cacheOk_write h hstale.1) hstale.2
    rw [List.append_assoc] at this
    exact this

theorem cacheOk_of_empty {c : ValueCache} (h : ∀ k, c.held k = none) (ws : List Write) : CacheOk c ws :=
  fun k _ hk => nomatch (h k).symm.trans hk

/-! ## The entries of a block -/

theorem entryAfter_of_last (blake3 : Bytes → Bytes32) (index : ShardIndex) (logId : ℕ) (hno : NoPutAfterDelete rs)
    (hlast : lastOf Record.key key rs = some r) :
    ∃ e, entryAfter blake3 index logId rs key = some e ∧ e.deleted = r.deleted ∧ e.logId = logId ∧
      (r.deleted = false → e.offset = r.offset) := by
  cases hd : r.deleted with
  | true =>
    have htomb : lastTombstone rs key = some r := lastOf_filter hlast hd
    cases hput : lastPut rs key <;> simp [entryAfter, hput, htomb]
  | false =>
    have hput : lastPut rs key = some r := lastOf_filter hlast (by rw [hd]; rfl)
    simp [entryAfter, hput, hno.lastTombstone_eq_none hlast hd]

theorem entryAfter_of_none {logId : ℕ} (hlast : lastOf Record.key key rs = none) :
    entryAfter blake3 index logId rs key = index[key]? := by
  have hnone := lastOf_eq_none.mp hlast
  have hput : lastPut rs key = none := lastOf_eq_none.mpr fun r hr => hnone r (List.mem_filter.mp hr).1
  have htomb : lastTombstone rs key = none :=
    lastOf_eq_none.mpr fun r hr => hnone r (List.mem_filter.mp hr).1
  rw [entryAfter, hput, htomb]

/-- Where the index finds a key: in the active log if it has a record there, and else in an older one. -/
def Located (index : ShardIndex) (gen : ℕ) (old done : List Record) : Prop :=
  ∀ key, match lastOf Record.key key (old ++ done) with
    | none => index[key]? = none
    | some r => ∃ e, index[key]? = some e ∧ e.deleted = r.deleted ∧
        ((e.logId < gen ∧ lastOf Record.key key done = none) ∨
          (e.logId = gen ∧ lastOf Record.key key done = some r ∧ (r.deleted = false → e.offset = r.offset)))

theorem located_fold {index' : ShardIndex} {gen : ℕ} {old done rs : List Record} {f : Record → Record}
    (h : Located index gen old done) (hno : NoPutAfterDelete rs) (hkeys : ∀ r, (f r).key = r.key)
    (hoffsets : ∀ r, (f r).offset = r.offset) (hdeleted : ∀ r, (f r).deleted = r.deleted)
    (hindex : ∀ key, index'[key]? = entryAfter blake3 index gen rs key) :
    Located index' gen old (done ++ rs.map f) := by
  intro key
  have hkey := h key
  have hmap : lastOf Record.key key (rs.map f) = (lastOf Record.key key rs).map f := by
    rw [lastOf_map]
    simp only [hkeys]
  rw [← List.append_assoc, lastOf_append, lastOf_append (l := done), hmap, hindex]
  cases hlast : lastOf Record.key key rs with
  | none =>
    rw [entryAfter_of_none hlast, Option.map_none, Option.none_or, Option.none_or]
    exact hkey
  | some r =>
    obtain ⟨e, he, hdel, hid, hoff⟩ := entryAfter_of_last blake3 index gen hno hlast
    rw [Option.map_some, Option.some_or, Option.some_or]
    refine ⟨e, he, ?_, .inr ⟨hid, rfl, ?_⟩⟩
    · rw [hdeleted]
      exact hdel
    · rw [hdeleted, hoffsets]
      exact hoff

theorem located_rotate {gen : ℕ} {old done : List Record}
    (h : Located index gen old done) : Located index (gen + 1) (old ++ done) [] := by
  intro key
  have hkey := h key
  rw [List.append_nil]
  cases hlast : lastOf Record.key key (old ++ done) with
  | none =>
    rw [hlast] at hkey
    exact hkey
  | some r =>
    rw [hlast] at hkey
    obtain ⟨e, he, hdel, hwhere⟩ := hkey
    refine ⟨e, he, hdel, .inl ⟨?_, rfl⟩⟩
    rcases hwhere with ⟨hlt, -⟩ | ⟨heq, -⟩ <;> omega

/-! ## The sealed segments -/

/-- The scan of a segment with the writes `ws` comes to the value of every key that is live in it. -/
def Sealable (ws : List Write) : Prop :=
  ∀ x ∈ ws, (liveValue ws x.key).isSome = true →
    liveValue (ws.takeWhile fun y => y.value.isSome) x.key = liveValue ws x.key

instance (ws : List Write) : Decidable (Sealable ws) :=
  inferInstanceAs (Decidable (∀ x ∈ ws, (liveValue ws x.key).isSome = true →
    liveValue (ws.takeWhile fun y => y.value.isSome) x.key = liveValue ws x.key))

/-- What the scan of a segment finds. -/
def scanned (key : Bytes32) (rs : List Record) : Option Bytes :=
  (lastOf Record.key key (rs.takeWhile fun r => !r.deleted)).map Record.value

theorem getAt_of_holds {seg : SealedSegment} {height : ℕ} (h : SegmentHolds seg rs)
    (hmin : seg.info.minHeight ≤ height) (hmax : height ≤ seg.info.maxHeight) (key : Bytes32) :
    seg.getAt key height = scanned key rs := by
  unfold SealedSegment.getAt
  rw [if_neg (by omega), records_of_lays h, foldl_lastOf, Option.or_none]
  rfl

theorem toWrite_takeWhile (rs : List Record) :
    (rs.takeWhile fun r => !r.deleted).map toWrite = (rs.map toWrite).takeWhile fun y => y.value.isSome := by
  rw [List.takeWhile_map]
  congr 2
  funext r
  cases hd : r.deleted <;> simp [toWrite, hd]

theorem scanned_eq (key : Bytes32) (rs : List Record) :
    scanned key rs = liveValue ((rs.map toWrite).takeWhile fun y => y.value.isSome) key := by
  unfold scanned liveValue
  rw [← toWrite_takeWhile, lastOf_toWrite]
  cases hlast : lastOf Record.key key (rs.takeWhile fun r => !r.deleted) with
  | none => rfl
  | some r =>
    have hput : r.deleted = false := by
      have := List.all_takeWhile (l := rs) (p := fun r => !r.deleted)
      simpa using List.all_eq_true.mp this r (lastOf_mem hlast).1
    simp [toWrite, hput]

theorem liveValue_of_put (hlast : lastOf Record.key key rs = some r) (hput : r.deleted = false) :
    liveValue (rs.map toWrite) key = some r.value := by
  rw [liveValue, lastOf_toWrite, hlast]
  simp [toWrite, hput]

theorem scanned_of_sealable (h : Sealable (rs.map toWrite)) (hlast : lastOf Record.key key rs = some r)
    (hput : r.deleted = false) : scanned key rs = some r.value := by
  obtain ⟨hr, hkey⟩ := lastOf_mem hlast
  have hlive := liveValue_of_put hlast hput
  have hkeyw : (toWrite r).key = key := hkey
  have := h (toWrite r) (List.mem_map_of_mem hr)
  rw [hkeyw, hlive] at this
  rw [scanned_eq, this rfl]

theorem scanned_of_none (hlast : lastOf Record.key key rs = none) : scanned key rs = none := by
  have hnone := lastOf_eq_none.mp hlast
  unfold scanned
  rw [lastOf_eq_none.mpr fun r hr => hnone r (List.takeWhile_subset _ hr)]
  rfl

theorem find_segments {segments : List SealedSegment} (h : List.Forall₂ SegmentHolds segments segs)
    (hheights : ∀ seg ∈ segments, seg.info.minHeight ≤ seg.info.maxHeight) (key : Bytes32) :
    (segments.reverse.findSome? fun seg => seg.getAt key seg.info.maxHeight) =
      segs.reverse.findSome? (scanned key) := by
  have hmap : segments.map (fun seg => seg.getAt key seg.info.maxHeight) = segs.map (scanned key) := by
    induction h with
    | nil => rfl
    | @cons seg rs segments segs hseg _ ih =>
      obtain ⟨hhead, htail⟩ := List.forall_mem_cons.mp hheights
      rw [List.map_cons, List.map_cons, getAt_of_holds hseg hhead le_rfl, ih htail]
  have hfind : ∀ {α : Type} (f : α → Option Bytes) (l : List α),
      l.reverse.findSome? f = (l.map f).reverse.findSome? id := by
    intro α f l
    rw [← List.map_reverse, List.findSome?_map]
    rfl
  rw [hfind, hmap, ← hfind]

theorem find_scanned_none (h : lastOf Record.key key segs.flatten = none) :
    segs.reverse.findSome? (scanned key) = none := by
  rw [List.findSome?_eq_none_iff]
  intro rs hrs
  refine scanned_of_none (lastOf_eq_none.mpr fun r hr => ?_)
  exact lastOf_eq_none.mp h r (List.mem_flatten.mpr ⟨rs, List.mem_reverse.mp hrs, hr⟩)

/-- **The newest segment with a record of the key decides.** -/
theorem find_scanned (hsealable : ∀ rs ∈ segs, Sealable (rs.map toWrite))
    (hlast : lastOf Record.key key segs.flatten = some r) (hput : r.deleted = false) :
    segs.reverse.findSome? (scanned key) = some r.value := by
  induction segs using List.reverseRecOn with
  | nil => cases hlast
  | append_singleton segs rs ih =>
    rw [List.flatten_append, List.flatten_singleton, lastOf_append] at hlast
    rw [List.reverse_append, List.reverse_singleton, List.singleton_append, List.findSome?_cons]
    cases hrs : lastOf Record.key key rs with
    | none =>
      rw [hrs, Option.none_or] at hlast
      rw [scanned_of_none hrs]
      exact ih (fun rs h => hsealable rs (List.mem_append_left _ h)) hlast
    | some r' =>
      rw [hrs, Option.some_or] at hlast
      obtain rfl := Option.some.inj hlast
      rw [scanned_of_sealable (hsealable rs (by simp)) hrs hput]

/-! ## Histories -/

/-- No key is put after it was deleted, in terms of the writes. -/
def NoPutAfter (ws : List Write) : Prop :=
  ∀ x ∈ ws, x.value = none → liveValue ws x.key = none

instance (ws : List Write) : Decidable (NoPutAfter ws) :=
  inferInstanceAs (Decidable (∀ x ∈ ws, x.value = none → liveValue ws x.key = none))

theorem noPutAfterDelete_of_writes (h : NoPutAfter (rs.map toWrite)) : NoPutAfterDelete rs := by
  intro t ht htomb r hlast
  have hnone : (toWrite t).value = none := by simp [toWrite, htomb]
  have hlive := h (toWrite t) (List.mem_map_of_mem ht) hnone
  cases hd : r.deleted with
  | true => rfl
  | false =>
    have hkeyw : (toWrite t).key = t.key := rfl
    rw [hkeyw, liveValue_of_put hlast hd] at hlive
    cases hlive

/-- The calls that keep index and cache right: no block puts a key after deleting it, and nothing stale
stays cached. -/
def CurrentStep (w : World) (op : Op) : Prop :=
  Plain w op ∧ match op with
    | .commit _ s =>
      NoPutAfter w.journal.pending ∧
      (if w.rotates then NoStale w.db.dbe.vcache.clear (w.journal.pending.drop s.cached)
      else NoStale w.db.dbe.vcache w.journal.pending)
    | _ => True

/-- The calls after which `get` is right: the pending block puts no key after deleting it and nothing
stale stays cached; when the segment is sealed, its scan comes to all its live keys and its heights are
in order. -/
def GoodStep (w : World) (op : Op) : Prop :=
  Plain w op ∧ match op with
    | .commit height s =>
      NoPutAfter w.journal.pending ∧
      (if w.rotates then
        Sealable (writesOf w.journal.blocks ++ w.journal.pending) ∧ w.db.activeMin ≤ height ∧
          NoStale w.db.dbe.vcache.clear (w.journal.pending.drop s.cached)
      else NoStale w.db.dbe.vcache w.journal.pending)
    | _ => True

theorem GoodStep.current (h : GoodStep w op) : CurrentStep w op := by
  refine ⟨h.1, ?_⟩
  cases op with
  | commit height s =>
    obtain ⟨hno, hrest⟩ := h.2
    refine ⟨hno, ?_⟩
    cases hrot : w.rotates with
    | false =>
      rw [hrot, if_neg (by simp)] at hrest
      exact hrest
    | true =>
      rw [hrot, if_pos rfl] at hrest
      exact hrest.2.2
  | _ => trivial

/-- Logs, index and cache are up to date. -/
structure Current (w : World) (segs : List (List Record)) (done pend : List Record) : Prop where
  tracks : Tracks w segs done pend
  located : Located w.db.dbe.index w.db.gen segs.flatten done
  cache : CacheOk w.db.dbe.vcache w.journal.committed

/-- What makes `get` right for all keys. -/
structure Readable (w : World) (segs : List (List Record)) (done pend : List Record) : Prop extends
    Current w segs done pend where
  sealable : ∀ rs ∈ segs, Sealable (rs.map toWrite)
  heights : ∀ seg ∈ w.db.segments, seg.info.minHeight ≤ seg.info.maxHeight

/-- The answer that `get` should give. -/
def answer (ws : List Write) (key : Bytes32) : Except DbError Bytes := orNotFound (liveValue ws key)

section
variable {db : DonaDbX}

/-- Without pending writes the last two steps of `get` come down to the sealed segments. -/
theorem getUnindexed_of_folded (h : Holds db.dbe.active done []) (key : Bytes32) : db.getUnindexed key =
    orNotFound (db.segments.reverse.findSome? fun seg => seg.getAt key seg.info.maxHeight) := by
  have hunflushed : db.dbe.active.scanUnflushed key = none := by
    unfold CommutativeLog.scanUnflushed
    rw [min_eq_left h.room, records_of_lays h.pend]
    rfl
  unfold DonaDbX.getUnindexed
  rw [hunflushed]

theorem readFromLog_of_mem {log : CommutativeLog} (h : Holds log done pend) (hr : r ∈ done)
    (hput : r.deleted = false) : readFromLog log r.offset = .ok r.value := by
  obtain ⟨hdecode, -, hle⟩ := h.done.decode hr
  have hroom := h.room
  have hpend := h.pend.le
  unfold readFromLog
  rw [hdecode]
  exact if_pos ⟨hput, by omega⟩

/-- **`get` gives the value of the last record** if the sealed segments do so for a live key that the
active log does not have. -/
theorem get_of_located {old : List Record} (hlog : Holds db.dbe.active done [])
    (hlocated : Located db.dbe.index db.gen old done)
    (hcache : CacheOk db.dbe.vcache ((old ++ done).map toWrite)) (key : Bytes32)
    (hold : lastOf Record.key key done = none →
      (∀ r, lastOf Record.key key old = some r → r.deleted = false) →
      db.getUnindexed key = answer ((old ++ done).map toWrite) key) :
    (db.get key).1 = answer ((old ++ done).map toWrite) key := by
  have hkey := hlocated key
  unfold DonaDbX.get
  cases hlast : lastOf Record.key key (old ++ done) with
  | none =>
    rw [hlast] at hkey
    have hnone : lastOf Record.key key done = none :=
      lastOf_eq_none.mpr fun r hr => lastOf_eq_none.mp hlast r (List.mem_append_right _ hr)
    rw [hkey]
    refine hold hnone fun r hr => ?_
    exact absurd (lastOf_mem hr).2 (lastOf_eq_none.mp hlast r (List.mem_append_left _ (lastOf_mem hr).1))
  | some r =>
    rw [hlast] at hkey
    obtain ⟨e, he, hdel, hwhere⟩ := hkey
    rw [he]
    dsimp only
    rw [hdel]
    cases hd : r.deleted with
    | true =>
      rw [if_pos rfl, answer, liveValue, lastOf_toWrite, hlast]
      simp [toWrite, hd, orNotFound]
    | false =>
      have hlive := liveValue_of_put hlast hd
      rw [if_neg (by simp)]
      have hget := fst_get db.dbe.vcache key
      cases hc : db.dbe.vcache.get key with
      | mk found c =>
        rw [hc] at hget
        cases found with
        | some v =>
          rw [answer, hcache key v hget.symm]
          rfl
        | none =>
          dsimp only
          rcases hwhere with ⟨hlt, hnone⟩ | ⟨hgen, hdone, hoff⟩
          · rw [if_neg (by omega)]
            refine hold hnone fun r' hr' => ?_
            rw [lastOf_append, hnone, Option.none_or, hr'] at hlast
            obtain rfl := Option.some.inj hlast
            exact hd
          · rw [if_pos hgen, hoff hd, readFromLog_of_mem hlog (lastOf_mem hdone).1 hd, answer, hlive]
            rfl

end

theorem Current.get (h : Current w segs done []) (key : Bytes32)
    (hold : lastOf Record.key key done = none →
      (∀ r, lastOf Record.key key segs.flatten = some r → r.deleted = false) →
      w.db.getUnindexed key = answer w.journal.committed key) :
    (w.db.get key).1 = answer w.journal.committed key := by
  have hcache := h.cache
  rw [h.tracks.committed] at hold hcache ⊢
  exact get_of_located h.tracks.holds h.located hcache key hold

/-- The sealed segments give the last committed value of the keys that the active log does not have, unless
it is a deletion. -/
theorem Readable.getUnindexed (h : Readable w segs done []) {key : Bytes32}
    (hnone : lastOf Record.key key done = none)
    (hput : ∀ r, lastOf Record.key key segs.flatten = some r → r.deleted = false) :
    w.db.getUnindexed key = answer w.journal.committed key := by
  rw [getUnindexed_of_folded h.tracks.holds, find_segments h.tracks.sealed h.heights, answer, h.tracks.committed]
  cases hlast : lastOf Record.key key segs.flatten with
  | none =>
    rw [find_scanned_none hlast, liveValue, lastOf_toWrite, lastOf_append, hnone, hlast]
    rfl
  | some r =>
    have hall : lastOf Record.key key (segs.flatten ++ done) = some r := by
      rw [lastOf_append, hnone, hlast]
      rfl
    rw [find_scanned h.sealable hlast (hput r hlast), liveValue_of_put hall (hput r hlast)]

/-! ## The invariant is kept -/

theorem readable_start (blake3 : Bytes → Bytes32) (cfg : Config) (n : ℕ) :
    Readable (start blake3 cfg n) [] [] [] := by
  have htracks := tracks_start blake3 cfg n
  unfold start at htracks ⊢
  rw [open_new] at htracks ⊢
  exact ⟨⟨htracks, fun _ => rfl, cacheOk_of_empty held_engine _⟩, by simp, by simp⟩

theorem Current.writes {x : Write} (h : Current w segs done pend)
    (hc : ∀ k v, c.held k = some v → w.db.dbe.vcache.held k = some v) (hw : Writes w x c w') :
    ∃ pend', Current w' segs done pend' := by
  have hcache : CacheOk c w.journal.committed := fun k v hk => h.cache k v (hc k v hk)
  have htracks : ∃ pend', Tracks w' segs done pend' := by
    rcases h.tracks.writes hw with h' | ⟨r, -, h'⟩
    · exact ⟨pend, h'⟩
    · exact ⟨_, h'⟩
  obtain ⟨pend', htracks⟩ := htracks
  cases hw with
  | failed => exact ⟨pend', htracks, h.located, hcache⟩
  | appended => exact ⟨pend', htracks, h.located, hcache⟩

theorem Current.located_folded (h : Current w segs done pend) (hno : NoPutAfter w.journal.pending) :
    Located (w.folded blake3).index w.db.gen segs.flatten
      (done ++ foldedRecords blake3 w.db.dbe.index pend) := by
  rw [← h.tracks.pending] at hno
  exact located_fold h.located (noPutAfterDelete_of_writes hno) (by simp) (by simp) (by simp)
    (index_commitFold blake3 _ _ _ h.tracks.holds.pend)

theorem Current.commit (blake3 : Bytes → Bytes32) (h : Current w segs done pend) (hrot : w.rotates = false)
    (hno : NoPutAfter w.journal.pending) (hstale : NoStale w.db.dbe.vcache w.journal.pending)
    (height : ℕ) (s : Schedule) :
    Current (step blake3 w (.commit height s)) segs (done ++ foldedRecords blake3 w.db.dbe.index pend) [] := by
  have htracks := h.tracks.commit blake3 hrot height s
  rw [step_commit h.tracks hrot] at htracks ⊢
  refine ⟨htracks, h.located_folded hno, ?_⟩
  dsimp only [afterFold]
  rw [foldl_cacheRecord, toWrite_foldedRecords, h.tracks.pending, committed_commit]
  exact cacheOk_block h.cache hstale

theorem Current.commitRotate (blake3 : Bytes → Bytes32) (h : Current w segs done pend)
    (hrot : w.rotates = true) (height : ℕ) {s : Schedule} (hno : NoPutAfter w.journal.pending)
    (hstale : NoStale w.db.dbe.vcache.clear (w.journal.pending.drop s.cached)) :
    Current (step blake3 w (.commit height s))
      (segs ++ [done ++ foldedRecords blake3 w.db.dbe.index pend]) [] [] := by
  have htracks := h.tracks.commitRotate blake3 hrot height s
  obtain ⟨c, hc⟩ : ∃ c, step blake3 w (.commit height s) = _ := step_commit_rotate h.tracks hrot height s
  rw [hc] at htracks ⊢
  refine ⟨htracks, ?_, ?_⟩
  · rw [List.flatten_append, List.flatten_singleton]
    exact located_rotate (h.located_folded hno)
  · have hsplit : w.journal.committed ++ w.journal.pending =
        (w.journal.committed ++ w.journal.pending.take s.cached) ++ w.journal.pending.drop s.cached := by
      rw [List.append_assoc, List.take_append_drop]
    dsimp only [History.withCache]
    rw [foldl_cacheRecord, List.map_drop, toWrite_foldedRecords, h.tracks.pending, committed_commit, hsplit]
    exact cacheOk_block (cacheOk_of_empty (held_clear _) _) hstale

/-- **A call keeps index and cache up to date**; the segment it may seal holds the writes of the closing
blocks. -/
theorem Current.step (blake3 : Bytes → Bytes32) (h : Current w segs done pend)
    (hop : CurrentStep w op) : ∃ new done' pend', Current (step blake3 w op) (segs ++ new) done' pend' ∧
      (new = [] ∨ ∃ height s rs, op = .commit height s ∧ w.rotates = true ∧ new = [rs] ∧
        rs.map toWrite = writesOf w.journal.blocks ++ w.journal.pending) := by
  have hplain : ∀ {w' : World} {done' pend'}, Current w' segs done' pend' →
      ∃ new done' pend', Current w' (segs ++ new) done' pend' ∧
        (new = [] ∨ ∃ height s rs, op = .commit height s ∧ w.rotates = true ∧ new = [rs] ∧
          rs.map toWrite = writesOf w.journal.blocks ++ w.journal.pending) := by
    intro w' done' pend' h'
    refine ⟨[], done', pend', ?_, .inl rfl⟩
    rw [List.append_nil]
    exact h'
  cases op with
  | put key value =>
    obtain ⟨pend', h'⟩ := h.writes (fun _ _ hk => hk) (writes_put w hop.1)
    exact hplain h'
  | delete key =>
    obtain ⟨pend', h'⟩ := h.writes (fun _ _ hk => (held_remove hk).2) (writes_delete w key)
    exact hplain h'
  | writerPut shardId key value =>
    rw [step_writerPut hop.1.1]
    obtain ⟨pend', h'⟩ := h.writes (fun _ _ hk => hk) (writes_put w hop.1.2)
    exact hplain h'
  | get key =>
    obtain ⟨c, hheld, hc⟩ := snd_get w.db key
    rw [History.step, hc]
    exact hplain ⟨h.tracks.withCache c, h.located, fun k v hk => h.cache k v (by rwa [← hheld])⟩
  | commit height s =>
    obtain ⟨-, hno, hrest⟩ := hop
    cases hrot : w.rotates with
    | false =>
      rw [hrot, if_neg (by simp)] at hrest
      rw [hrot] at hplain
      exact hplain (h.commit blake3 hrot hno hrest height s)
    | true =>
      rw [hrot, if_pos rfl] at hrest
      refine ⟨_, _, _, h.commitRotate blake3 hrot height hno hrest, .inr ⟨height, s, _, rfl, rfl, rfl, ?_⟩⟩
      rw [List.map_append, h.tracks.blocks, toWrite_foldedRecords, h.tracks.pending]

theorem segments_step (blake3 : Bytes → Bytes32) (h : Tracks w segs done pend) (hop : Plain w op) :
    (step blake3 w op).db.segments = w.db.segments ∨ ∃ height s mmap, op = .commit height s ∧
      w.rotates = true ∧ (step blake3 w op).db.segments = w.db.segments ++ [⟨⟨w.db.manifest.nextId, true,
        w.db.dbe.active.writeOffset, w.db.activeMin, height⟩, mmap⟩] := by
  have hwrites : ∀ {x c w'}, Writes w x c w' → w'.db.segments = w.db.segments := by
    intro x c w' hw
    cases hw <;> rfl
  cases op with
  | put key value => exact .inl (hwrites (writes_put w hop))
  | delete key => exact .inl (hwrites (writes_delete w key))
  | writerPut shardId key value =>
    rw [step_writerPut hop.1]
    exact .inl (hwrites (writes_put w hop.2))
  | get key =>
    obtain ⟨c, -, hc⟩ := snd_get w.db key
    rw [History.step, hc]
    exact .inl rfl
  | commit height s =>
    cases hrot : w.rotates with
    | false =>
      rw [step_commit h hrot]
      exact .inl rfl
    | true =>
      obtain ⟨c, hc⟩ : ∃ c, step blake3 w (.commit height s) = _ := step_commit_rotate h hrot height s
      rw [hc]
      exact .inr ⟨height, s, _, rfl, rfl, rfl⟩

theorem Readable.step (blake3 : Bytes → Bytes32) (h : Readable w segs done pend)
    (hop : GoodStep w op) : ∃ segs' done' pend', Readable (step blake3 w op) segs' done' pend' := by
  obtain ⟨new, done', pend', hcurrent, hnew⟩ := h.toCurrent.step blake3 hop.current
  refine ⟨_, done', pend', hcurrent, ?_, ?_⟩
  · intro rs hrs
    rcases List.mem_append.mp hrs with hrs | hrs
    · exact h.sealable rs hrs
    · rcases hnew with rfl | ⟨height, s, rs', rfl, hrot, rfl, hwrites⟩
      · cases hrs
      · obtain rfl := List.mem_singleton.mp hrs
        have hrest := hop.2.2
        rw [hrot, if_pos rfl] at hrest
        rw [hwrites]
        exact hrest.1
  · intro seg hseg
    rcases segments_step blake3 h.tracks hop.1 with heq | ⟨height, s, mmap, rfl, hrot, heq⟩
    · rw [heq] at hseg
      exact h.heights seg hseg
    · rw [heq] at hseg
      rcases List.mem_append.mp hseg with hseg | hseg
      · exact h.heights seg hseg
      · obtain rfl := List.mem_singleton.mp hseg
        have hrest := hop.2.2
        rw [hrot, if_pos rfl] at hrest
        exact hrest.2.1

/-- **After a commit `get` gives the last committed value of every key**, in every history of good
calls. -/
theorem get_of_good (blake3 : Bytes → Bytes32) (cfg : Config) (n : ℕ) (ops : List Op)
    (h : Along (step blake3) GoodStep (start blake3 cfg n) ops)
    (hcommitted : (run (step blake3) (start blake3 cfg n) ops).journal.pending = []) (key : Bytes32) :
    ((run (step blake3) (start blake3 cfg n) ops).db.get key).1 =
      answer (run (step blake3) (start blake3 cfg n) ops).journal.committed key := by
  obtain ⟨segs, done, pend, hreadable⟩ := h.invariant
    (I := fun w => ∃ segs done pend, Readable w segs done pend)
    (fun w op hw hop => by
      obtain ⟨_, _, _, hw⟩ := hw
      exact hw.step blake3 hop)
    ⟨_, _, _, readable_start blake3 cfg n⟩
  have hpend := hreadable.tracks.pending
  rw [hcommitted, List.map_eq_nil_iff] at hpend
  subst hpend
  exact hreadable.toCurrent.get key fun hnone hput => hreadable.getUnindexed hnone hput

def rotatingConfig : Config := ⟨1024, fun used => 120 ≤ used, smallConfig.header, smallConfig.width⟩

/-- The fold has cached two records when a rotation clears the cache. -/
def foldFirst : Schedule := ⟨id, 2⟩

/-- Two keys in a sealed segment, one of them deleted in the next. -/
def sealedAndDeleted : List Op := [.put 1 [7], .put 2 [8], .commit 1 foldFirst, .delete 2, .commit 2 foldFirst]

example : (run (step sampleHash) (start sampleHash rotatingConfig 1)
      sealedAndDeleted).db.segments.length = 1 := by
  decide +kernel

theorem get_sealed_and_deleted :
    (run (step sampleHash) (start sampleHash rotatingConfig 1) sealedAndDeleted).db.segments.length = 1 ∧
    ∀ key, ((run (step sampleHash) (start sampleHash rotatingConfig 1) sealedAndDeleted).db.get key).1 =
      answer (run (step sampleHash) (start sampleHash rotatingConfig 1) sealedAndDeleted).journal.committed
        key := by
  have hshort : ∀ b : UInt8, [b].length < 2 ^ 32 := by simp
  have hfirst : GoodStep (run (step sampleHash) (start sampleHash rotatingConfig 1) [.put 1 [7], .put 2 [8]])
      (.commit 1 foldFirst) := by
    refine ⟨trivial, by decide +kernel, ?_⟩
    rw [if_pos (by decide +kernel)]
    exact ⟨by decide +kernel, by decide +kernel, noStale_of_short (by decide +kernel) _⟩
  have hsecond : GoodStep (run (step sampleHash) (start sampleHash rotatingConfig 1)
      [.put 1 [7], .put 2 [8], .commit 1 foldFirst, .delete 2]) (.commit 2 foldFirst) := by
    refine ⟨trivial, by decide +kernel, ?_⟩
    rw [if_neg (by decide +kernel)]
    exact noStale_of_short (by decide +kernel) _
  refine ⟨by decide +kernel, fun key => get_of_good sampleHash rotatingConfig 1 sealedAndDeleted ?_
    (by decide +kernel) key⟩
  exact ⟨⟨hshort 7, trivial⟩, ⟨hshort 8, trivial⟩, hfirst, ⟨trivial, trivial⟩, hsecond, trivial⟩

def Basic : Op → Prop
  | .put _ _ | .delete _ | .commit _ _ => True
  | _ => False

/-- A rotation hides a key that was put after a deletion in its segment. -/
theorem rotation_hides_key : ¬ ∀ (blake3 : Bytes → Bytes32) (cfg : Config) (n : ℕ) (ops : List Op),
    (∀ op ∈ ops, Basic op) → (run (step blake3) (start blake3 cfg n) ops).journal.pending = [] →
      ∀ key, ((run (step blake3) (start blake3 cfg n) ops).db.get key).1 =
        answer (run (step blake3) (start blake3 cfg n) ops).journal.committed key := by
  intro h
  have hget := h sampleHash rotatingConfig 1 [.delete 2, .put 1 [7], .commit 1 foldFirst]
    (by simp [Basic]) (by decide +kernel) 1
  revert hget
  decide +kernel

end TruthLinked.DonaDb.Lookup
