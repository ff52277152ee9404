import TruthLinked.DonaDb.Frames
import TruthLinked.Lib.Overlay

/-! # The read paths

Besides `get` the engine has `get_slice`, which passes over the cache, `scan_prefix`, which lays the
unfolded writes over the index, an empty value standing for a deletion, and `scan_from_reverse`, which
does not know of unfolded writes. All four say the same iff nothing hangs on these differences for any
key (`SettledAt`): `reads_agree_iff` has this for every database, however it came about. -/

namespace TruthLinked.DonaDb.Scans

open Core.Types Lib.Table Lib.Overlay Lib.Run DonaDb.Log DonaDb.Fold DonaDb.Cache DonaDb.Block DonaDb.Engine
open DonaDb.History DonaDb.Lookup DonaDb.Frames

/-! ## The reads -/

/-- `CommutativeLog::value_ref`: the bytes that the reference stands for. -/
def valueRef (log : CommutativeLog) (off : ℕ) : Option Bytes :=
  match decode log.mmap off with
  | some r => if r.deleted = false ∧ off + r.total ≤ log.capacity then some r.value else none
  | none => none

/-- `DonaDbX::get_slice`. -/
def getSlice (db : DonaDbX) (key : Bytes32) : Except DbError Bytes :=
  match db.dbe.index[key]? with
  | none => db.getUnindexed key
  | some e =>
    if e.deleted then .error .notFound
    else if e.logId = db.gen then
      match valueRef db.dbe.active e.offset with
      | some v => .ok v
      | none => db.getUnindexed key
    else db.getUnindexed key

/-- `CommutativeLog::scan_all_unflushed`: the last value of every key, an empty one for a deletion. -/
def scanAllUnflushed (log : CommutativeLog) : List (Bytes32 × Bytes) :=
  ((records log.mmap log.committedOffset (min log.writeOffset log.capacity)).foldl
    (fun m r => m.insert r.key (if r.deleted then [] else r.value)) (∅ : Map Bytes32 Bytes)).toList

/-- An entry in the loop over `all_entries`: the value is read with `get`. -/
def collectEntry (p : Bytes32 → Bool) (s : List (Bytes32 × Bytes) × DonaDbX) (e : Entry) :
    List (Bytes32 × Bytes) × DonaDbX :=
  if e.deleted || !p e.key then s
  else
    match s.2.get e.key with
    | (.ok v, db) => (s.1 ++ [(e.key, v)], db)
    | (.error _, db) => (s.1, db)

/-- The loop over `all_entries` in both scans. -/
def collect (p : Bytes32 → Bool) (db : DonaDbX) : List (Bytes32 × Bytes) × DonaDbX :=
  (db.dbe.index.toList.map Prod.snd).foldl (collectEntry p) ([], db)

/-- `DonaDbX::scan_prefix`. -/
def scanPrefix (db : DonaDbX) (pre : Bytes) : List (Bytes32 × Bytes) × DonaDbX :=
  let p : Bytes32 → Bool := fun key => pre.isPrefixOf (ofBytes32 key)
  let (results, db) := collect p db
  let results := (scanAllUnflushed db.dbe.active).foldl (lay p List.isEmpty) results
  (results.insertionSort fun a b => a.1 ≤ b.1, db)

/-- `DonaDbX::scan_from_reverse`. -/
def scanFromReverse (db : DonaDbX) (start : Bytes32) : List (Bytes32 × Bytes) × DonaDbX :=
  let (results, db) := collect (fun key => decide (key ≤ start)) db
  (results.insertionSort fun a b => b.1 ≤ a.1, db)

/-- The four reads say the same, and the scans are in order. -/
structure ReadsAgree (db : DonaDbX) : Prop where
  scanned : ∀ pre key v, (key, v) ∈ (scanPrefix db pre).1 ↔ pre <+: ofBytes32 key ∧ (db.get key).1 = .ok v
  reversed : ∀ start key v, (key, v) ∈ (scanFromReverse db start).1 ↔ key ≤ start ∧ (db.get key).1 = .ok v
  slice : ∀ key, getSlice db key = (db.get key).1
  ascending : ∀ pre, (scanPrefix db pre).1.Pairwise fun a b => a.1 < b.1
  descending : ∀ start, (scanFromReverse db start).1.Pairwise fun a b => b.1 < a.1

/-! ## When they agree -/

/-- The last unfolded record of a key in the active log. -/
def lastUnflushed (db : DonaDbX) (key : Bytes32) : Option Record :=
  lastOf Record.key key (records db.dbe.active.mmap db.dbe.active.committedOffset
    (min db.dbe.active.writeOffset db.dbe.active.capacity))

/-- What the sealed segments have for a key, from the newest on. -/
def inSegments (db : DonaDbX) (key : Bytes32) : Option Bytes :=
  db.segments.reverse.findSome? fun seg => seg.getAt key seg.info.maxHeight

/-- The value of the record that an entry names, if that is in the active log. -/
def stored (db : DonaDbX) (e : Entry) : Option Bytes :=
  if e.logId = db.gen then valueRef db.dbe.active e.offset else none

/-- Nothing that the reads treat differently is there for the key. Without an entry it has no unfolded put
and no value in a segment; if its entry is deleted it has no unfolded put but of an empty value. Otherwise the
cache holds what the log and the segments have; an unfolded put is not empty and of that very value, and
an unfolded deletion finds nothing that could be read. -/
def SettledAt (db : DonaDbX) (key : Bytes32) : Prop :=
  match db.dbe.index[key]? with
  | none => (∀ r, lastUnflushed db key = some r → r.deleted = true) ∧ inSegments db key = none
  | some e =>
    if e.deleted then ∀ r, lastUnflushed db key = some r → r.deleted = true ∨ r.value = []
    else
      match lastUnflushed db key with
      | none => ∀ v, db.dbe.vcache.held key = some v → (stored db e).or (inSegments db key) = some v
      | some r =>
        if r.deleted then stored db e = none ∧ inSegments db key = none ∧ db.dbe.vcache.held key = none
        else r.value ≠ [] ∧ (∀ v, stored db e = some v → v = r.value) ∧
          ∀ v, db.dbe.vcache.held key = some v → v = r.value

/-! ## Single reads -/

variable {db : DonaDbX} {key : Bytes32} {e : Entry} {v : Bytes}

/-- What an unfolded record gives: a deletion ends the search in the log. -/
def recordValue (r : Record) : Option Bytes := if r.deleted then none else some r.value

theorem scanUnflushed_eq (db : DonaDbX) (key : Bytes32) :
    db.dbe.active.scanUnflushed key = (lastUnflushed db key).bind recordValue := by
  unfold CommutativeLog.scanUnflushed lastUnflushed
  generalize records _ _ _ = rs
  induction rs using List.reverseRecOn with
  | nil => rfl
  | append_singleton rs r ih =>
    rw [List.foldl_append, List.foldl_cons, List.foldl_nil, ih, lastOf_concat]
    split <;> rfl

theorem getUnindexed_eq (db : DonaDbX) (key : Bytes32) : db.getUnindexed key =
    orNotFound (((lastUnflushed db key).bind recordValue).or (inSegments db key)) := by
  unfold DonaDbX.getUnindexed
  rw [scanUnflushed_eq]
  cases (lastUnflushed db key).bind recordValue <;> rfl

/-- What is found without the cache. -/
def found (db : DonaDbX) (key : Bytes32) (e : Entry) : Option Bytes :=
  (stored db e).or (((lastUnflushed db key).bind recordValue).or (inSegments db key))

theorem getSlice_live (he : db.dbe.index[key]? = some e) (hlive : e.deleted = false) :
    getSlice db key = orNotFound (found db key e) := by
  unfold getSlice found stored
  rw [he]
  dsimp only
  rw [hlive, if_neg (by simp), getUnindexed_eq]
  by_cases hgen : e.logId = db.gen
  · rw [if_pos hgen, if_pos hgen]
    cases valueRef db.dbe.active e.offset <;> rfl
  · rw [if_neg hgen, if_neg hgen]
    rfl

theorem get_live (he : db.dbe.index[key]? = some e) (hlive : e.deleted = false) :
    (db.get key).1 = orNotFound ((db.dbe.vcache.held key).or (found db key e)) := by
  have hread : readFromLog db.dbe.active e.offset =
      (valueRef db.dbe.active e.offset).elim (.error .corrupt) .ok := by
    unfold readFromLog valueRef
    cases decode db.dbe.active.mmap e.offset with
    | none => rfl
    | some r =>
      dsimp only
      split <;> rfl
  have hheld := fst_get db.dbe.vcache key
  unfold DonaDbX.get
  rw [he]
  dsimp only
  rw [hlive, if_neg (by simp), ← hheld]
  cases hcache : db.dbe.vcache.get key with
  | mk hit c =>
    cases hit with
    | some v => rfl
    | none =>
      dsimp only
      unfold found stored
      rw [hread, getUnindexed_eq, Option.none_or]
      by_cases hgen : e.logId = db.gen
      · rw [if_pos hgen, if_pos hgen]
        cases valueRef db.dbe.active e.offset <;> rfl
      · rw [if_neg hgen, if_neg hgen]
        rfl

theorem get_deleted (he : db.dbe.index[key]? = some e) (hdead : e.deleted = true) :
    (db.get key).1 = .error .notFound := by
  unfold DonaDbX.get
  rw [he]
  dsimp only
  rw [if_pos hdead]

theorem get_unknown (he : db.dbe.index[key]? = none) :
    (db.get key).1 = orNotFound (((lastUnflushed db key).bind recordValue).or (inSegments db key)) := by
  unfold DonaDbX.get
  rw [he]
  exact getUnindexed_eq db key

theorem orNotFound_eq_ok {o : Option Bytes} : orNotFound o = .ok v ↔ o = some v := by
  cases o with
  | none => simp [orNotFound]
  | some u => simp [orNotFound]

theorem orNotFound_inj {o o' : Option Bytes} : orNotFound o = orNotFound o' ↔ o = o' := by
  cases o <;> cases o' <;> simp [orNotFound]

theorem get_withCache {c : ValueCache} (hc : c.held = db.dbe.vcache.held) (key : Bytes32) :
    ((withCache db c).get key).1 = (db.get key).1 := by
  cases he : db.dbe.index[key]? with
  | none =>
    have he' : (withCache db c).dbe.index[key]? = none := he
    rw [get_unknown he, get_unknown he']
    rfl
  | some e =>
    have he' : (withCache db c).dbe.index[key]? = some e := he
    cases hdead : e.deleted with
    | true => rw [get_deleted he hdead, get_deleted he' hdead]
    | false =>
      have hheld : (withCache db c).dbe.vcache.held key = db.dbe.vcache.held key := congrFun hc key
      rw [get_live he hdead, get_live he' hdead, hheld]
      rfl

/-! ## Scans -/

/-- The entries of the index are filed under their own keys. -/
def Keyed (index : ShardIndex) : Prop := ∀ (key : Bytes32) (e : Entry), index[key]? = some e → e.key = key

/-- The key has an entry that is not deleted. -/
def Live (db : DonaDbX) (key : Bytes32) : Prop := ∃ e, db.dbe.index[key]? = some e ∧ e.deleted = false

/-- What the loop collects for an entry. -/
def collected (db : DonaDbX) (p : Bytes32 → Bool) (e : Entry) : Option (Bytes32 × Bytes) :=
  if e.deleted || !p e.key then none
  else
    match (db.get e.key).1 with
    | .ok v => some (e.key, v)
    | .error _ => none

theorem collectEntry_eq (db : DonaDbX) (p : Bytes32 → Bool) (e : Entry) (rs : List (Bytes32 × Bytes))
    {c : ValueCache} (hc : c.held = db.dbe.vcache.held) : ∃ c', c'.held = db.dbe.vcache.held ∧
      collectEntry p (rs, withCache db c) e = (rs ++ (collected db p e).toList, withCache db c') := by
  unfold collectEntry collected
  dsimp only
  by_cases hskip : (e.deleted || !p e.key) = true
  · rw [if_pos hskip, if_pos hskip]
    exact ⟨c, hc, by rw [Option.toList_none, List.append_nil]⟩
  · rw [if_neg hskip, if_neg hskip]
    obtain ⟨c', hc', hdb⟩ := snd_get (withCache db c) e.key
    have hvalue := get_withCache hc e.key
    cases hget : (withCache db c).get e.key with
    | mk res db' =>
      rw [hget] at hdb hvalue
      dsimp only at hdb hvalue
      obtain rfl : db' = withCache db c' := hdb
      rw [← hvalue]
      refine ⟨c', hc'.trans hc, ?_⟩
      cases res with
      | ok v => rfl
      | error err => exact congrArg (·, _) (List.append_nil rs).symm

theorem foldl_collectEntry (db : DonaDbX) (p : Bytes32 → Bool) (es : List Entry) (rs : List (Bytes32 × Bytes))
    {c : ValueCache} (hc : c.held = db.dbe.vcache.held) : ∃ c', c'.held = db.dbe.vcache.held ∧
      es.foldl (collectEntry p) (rs, withCache db c) =
        (rs ++ es.filterMap (collected db p), withCache db c') := by
  induction es generalizing rs c with
  | nil => exact ⟨c, hc, by rw [List.filterMap_nil, List.append_nil]; rfl⟩
  | cons e es ih =>
    obtain ⟨c', hc', hstep⟩ := collectEntry_eq db p e rs hc
    obtain ⟨c'', hc'', hrest⟩ := ih (rs ++ (collected db p e).toList) hc'
    refine ⟨c'', hc'', ?_⟩
    rw [List.foldl_cons, hstep, hrest, List.append_assoc, List.filterMap_cons]
    cases collected db p e <;> rfl

theorem collect_eq (p : Bytes32 → Bool) (db : DonaDbX) :
    (collect p db).1 = (db.dbe.index.toList.map Prod.snd).filterMap (collected db p) ∧
      (collect p db).2.dbe.active = db.dbe.active := by
  obtain ⟨c, -, heq⟩ := foldl_collectEntry db p (db.dbe.index.toList.map Prod.snd) [] (c := db.dbe.vcache) rfl
  have hcollect : collect p db = _ := heq
  rw [hcollect]
  exact ⟨rfl, rfl⟩

theorem collected_eq_some {p : Bytes32 → Bool} {x : Bytes32 × Bytes} : collected db p e = some x ↔
    e.deleted = false ∧ p e.key = true ∧ x.1 = e.key ∧ (db.get e.key).1 = .ok x.2 := by
  unfold collected
  obtain ⟨key, v⟩ := x
  cases hd : e.deleted <;> cases hp : p e.key <;> simp
  cases hget : (db.get e.key).1 with
  | ok u => simp [eq_comm]
  | error err => simp

/-- **What the loop collects**: the live keys that meet `p`, with what `get` gives for them. -/
theorem mem_collect (hkeyed : Keyed db.dbe.index) (p : Bytes32 → Bool) (x : Bytes32 × Bytes) :
    x ∈ (collect p db).1 ↔ Live db x.1 ∧ p x.1 = true ∧ (db.get x.1).1 = .ok x.2 := by
  rw [(collect_eq p db).1, List.mem_filterMap]
  simp only [List.mem_map, collected_eq_some]
  constructor
  · rintro ⟨e, ⟨⟨key, e⟩, hin, rfl⟩, hlive, hp, hkey, hget⟩
    have he := Std.ExtTreeMap.mem_toList_iff_getElem?_eq_some.mp hin
    rw [hkey]
    refine ⟨⟨e, ?_, hlive⟩, hp, hget⟩
    rw [hkeyed key e he]
    exact he
  · rintro ⟨⟨e, he, hlive⟩, hp, hget⟩
    have hkey := hkeyed x.1 e he
    refine ⟨e, ⟨(x.1, e), Std.ExtTreeMap.mem_toList_iff_getElem?_eq_some.mpr he, rfl⟩, hlive, ?_, hkey.symm, ?_⟩
    · rw [hkey]
      exact hp
    · rw [hkey]
      exact hget

theorem unique_collect (hkeyed : Keyed db.dbe.index) (p : Bytes32 → Bool) : UniqueKeys (collect p db).1 := by
  have hkeys : (db.dbe.index.toList.map Prod.snd).Pairwise fun e e' => e.key ≠ e'.key := by
    refine List.pairwise_map.mpr ?_
    have hnodup : db.dbe.index.keys.Nodup := db.dbe.index.nodup_keys
    rw [← Std.ExtTreeMap.map_fst_toList_eq_keys] at hnodup
    refine (List.pairwise_map.mp hnodup).imp_of_mem ?_
    rintro ⟨key, e⟩ ⟨key', e'⟩ hin hin' hne
    rw [hkeyed key e (Std.ExtTreeMap.mem_toList_iff_getElem?_eq_some.mp hin),
      hkeyed key' e' (Std.ExtTreeMap.mem_toList_iff_getElem?_eq_some.mp hin')]
    exact hne
  rw [(collect_eq p db).1]
  refine List.pairwise_map.mpr (List.Pairwise.filterMap (collected db p) ?_ hkeys)
  intro e e' hne x hx x' hx'
  rw [(collected_eq_some.mp hx).2.2.1, (collected_eq_some.mp hx').2.2.1]
  exact hne

/-- What the overlay has for a record. -/
def overlayValue (r : Record) : Bytes := if r.deleted then [] else r.value

theorem mem_scanAllUnflushed (db : DonaDbX) (x : Bytes32 × Bytes) :
    x ∈ scanAllUnflushed db.dbe.active ↔ (lastUnflushed db x.1).map overlayValue = some x.2 := by
  obtain ⟨key, v⟩ := x
  unfold scanAllUnflushed
  rw [Std.ExtTreeMap.mem_toList_iff_getElem?_eq_some,
    getElem?_foldl_insert,
    Std.ExtTreeMap.getElem?_empty, Option.or_none]
  rfl

theorem unique_scanAllUnflushed (log : CommutativeLog) : UniqueKeys (scanAllUnflushed log) := by
  unfold UniqueKeys scanAllUnflushed
  rw [Std.ExtTreeMap.map_fst_toList_eq_keys]
  exact Std.ExtTreeMap.nodup_keys

theorem key_mem_scanAllUnflushed (db : DonaDbX) (key : Bytes32) :
    key ∈ (scanAllUnflushed db.dbe.active).map Prod.fst ↔ lastUnflushed db key ≠ none := by
  constructor
  · intro hin
    obtain ⟨x, hx, rfl⟩ := List.mem_map.mp hin
    intro hnone
    have hsome := (mem_scanAllUnflushed db x).mp hx
    rw [hnone] at hsome
    cases hsome
  · intro hsome
    obtain ⟨r, hr⟩ := Option.ne_none_iff_exists'.mp hsome
    refine List.mem_map.mpr ⟨(key, overlayValue r), (mem_scanAllUnflushed db _).mpr ?_, rfl⟩
    rw [hr]
    rfl

/-- **What `scan_prefix` gives**: of a key with unfolded records the last value if it is not empty, and of
any other live key what `get` gives. -/
theorem mem_scanPrefix (hkeyed : Keyed db.dbe.index) (pre : Bytes) (x : Bytes32 × Bytes) :
    x ∈ (scanPrefix db pre).1 ↔ pre <+: ofBytes32 x.1 ∧
      match lastUnflushed db x.1 with
      | none => Live db x.1 ∧ (db.get x.1).1 = .ok x.2
      | some r => overlayValue r = x.2 ∧ x.2 ≠ [] := by
  have hactive := (collect_eq (fun key => pre.isPrefixOf (ofBytes32 key)) db).2
  unfold scanPrefix
  dsimp only
  rw [hactive, (List.perm_insertionSort _ _).mem_iff, mem_foldl_lay (unique_scanAllUnflushed _),
    mem_collect hkeyed, key_mem_scanAllUnflushed, mem_scanAllUnflushed, List.isPrefixOf_iff_prefix]
  cases lastUnflushed db x.1 with
  | none => simp; tauto
  | some r => simp [and_comm]; tauto

theorem mem_scanFromReverse (hkeyed : Keyed db.dbe.index) (start : Bytes32) (x : Bytes32 × Bytes) :
    x ∈ (scanFromReverse db start).1 ↔ x.1 ≤ start ∧ Live db x.1 ∧ (db.get x.1).1 = .ok x.2 := by
  unfold scanFromReverse
  dsimp only
  rw [(List.perm_insertionSort _ _).mem_iff, mem_collect hkeyed, decide_eq_true_eq]
  tauto

section Order

instance : IsTrans Bytes32 (· ≤ ·) := ⟨fun _ _ _ => BitVec.le_trans⟩

instance : Std.Total (α := Bytes32) (· ≤ ·) := ⟨BitVec.le_total⟩

instance : IsTrans Bytes32 (· ≥ ·) := ⟨fun _ _ _ hab hbc => BitVec.le_trans hbc hab⟩

instance : Std.Total (α := Bytes32) (· ≥ ·) := ⟨fun a b => BitVec.le_total b a⟩

theorem lt_of_le_of_ne' {a b : Bytes32} (h : a ≤ b) (hne : a ≠ b) : a < b := by
  have hnat : a.toNat ≠ b.toNat := fun h => hne (BitVec.eq_of_toNat_eq h)
  rw [BitVec.le_def] at h
  rw [BitVec.lt_def]
  omega

/-- **The scans are in order** and have no key twice. -/
theorem scanPrefix_ascending (hkeyed : Keyed db.dbe.index) (pre : Bytes) :
    (scanPrefix db pre).1.Pairwise fun a b => a.1 < b.1 := by
  have hunique : UniqueKeys
      ((scanAllUnflushed (collect (fun key => pre.isPrefixOf (ofBytes32 key)) db).2.dbe.active).foldl
      (lay (fun key => pre.isPrefixOf (ofBytes32 key)) List.isEmpty)
      (collect (fun key => pre.isPrefixOf (ofBytes32 key)) db).1) :=
    unique_foldl_lay (unique_collect hkeyed _)
  have hsorted := strict_sort (fun a b : Bytes32 => a ≤ b) hunique
  exact hsorted.imp fun h => lt_of_le_of_ne' h.1 h.2

theorem scanFromReverse_descending (hkeyed : Keyed db.dbe.index) (start : Bytes32) :
    (scanFromReverse db start).1.Pairwise fun a b => b.1 < a.1 := by
  have hsorted := strict_sort (fun a b : Bytes32 => a ≥ b)
    (unique_collect hkeyed fun key => decide (key ≤ start))
  exact hsorted.imp fun h => lt_of_le_of_ne' h.1 (Ne.symm h.2)

end Order

/-! ## Agreement, key by key -/

/-- The reads say the same of one key. -/
structure AgreeAt (db : DonaDbX) (key : Bytes32) : Prop where
  slice : getSlice db key = (db.get key).1
  overlay : ∀ v, (match lastUnflushed db key with
    | none => Live db key ∧ (db.get key).1 = .ok v
    | some r => overlayValue r = v ∧ v ≠ []) ↔ (db.get key).1 = .ok v
  live : ∀ v, (db.get key).1 = .ok v → Live db key

theorem readsAgree_iff (hkeyed : Keyed db.dbe.index) : ReadsAgree db ↔ ∀ key, AgreeAt db key := by
  constructor
  · intro h key
    refine ⟨h.slice key, fun v => ?_, fun v hget => ?_⟩
    · have hscan := h.scanned [] key v
      rw [mem_scanPrefix hkeyed, and_iff_right List.nil_prefix, and_iff_right List.nil_prefix] at hscan
      exact hscan
    · have hreverse := h.reversed key key v
      rw [mem_scanFromReverse hkeyed] at hreverse
      exact (hreverse.mpr ⟨BitVec.le_refl key, hget⟩).2.1
  · intro h
    refine ⟨fun pre key v => ?_, fun start key v => ?_, fun key => (h key).slice, scanPrefix_ascending hkeyed,
      scanFromReverse_descending hkeyed⟩
    · rw [mem_scanPrefix hkeyed]
      exact and_congr_right fun _ => (h key).overlay v
    · rw [mem_scanFromReverse hkeyed]
      exact and_congr_right fun _ => ⟨And.right, fun hget => ⟨(h key).live v hget, hget⟩⟩

theorem recordValue_eq_none {r : Record} : recordValue r = none ↔ r.deleted = true := by
  unfold recordValue
  split <;> simp [*]

theorem overlayValue_eq_nil {r : Record} : overlayValue r = [] ↔ r.deleted = true ∨ r.value = [] := by
  unfold overlayValue
  split <;> simp [*]

theorem not_live_of_none (he : db.dbe.index[key]? = none) : ¬ Live db key := by
  rintro ⟨e, he', -⟩
  rw [he] at he'
  cases he'

theorem not_live_of_deleted (he : db.dbe.index[key]? = some e) (hdead : e.deleted = true) : ¬ Live db key := by
  rintro ⟨e', he', hlive⟩
  rw [he] at he'
  obtain rfl := Option.some.inj he'
  rw [hdead] at hlive
  cases hlive

/-- A key without an entry may have nothing that `get` could find. -/
theorem agreeAt_unknown (he : db.dbe.index[key]? = none) : AgreeAt db key ↔
    (∀ r, lastUnflushed db key = some r → r.deleted = true) ∧ inSegments db key = none := by
  have hget := get_unknown he
  have hslice : getSlice db key = (db.get key).1 := by
    unfold getSlice
    rw [he, hget]
    exact getUnindexed_eq db key
  have hnothing : (lastUnflushed db key).bind recordValue = none ↔
      ∀ r, lastUnflushed db key = some r → r.deleted = true := by
    simp only [Option.bind_eq_none_iff, recordValue_eq_none]
  rw [← hnothing, ← Option.or_eq_none_iff]
  constructor
  · intro h
    cases hfound : ((lastUnflushed db key).bind recordValue).or (inSegments db key) with
    | none => rfl
    | some v =>
      rw [hfound] at hget
      exact absurd (h.live v hget) (not_live_of_none he)
  · intro hnone
    rw [hnone] at hget
    have hnever : ∀ v, (db.get key).1 ≠ .ok v := by
      intro v hv
      rw [hget] at hv
      cases hv
    refine ⟨hslice, fun v => ?_, fun v hv => absurd hv (hnever v)⟩
    refine iff_of_false ?_ (hnever v)
    cases hlast : lastUnflushed db key with
    | none => exact fun h => not_live_of_none he h.1
    | some r =>
      rintro ⟨rfl, hne⟩
      have hdel := hnothing.mp (Option.or_eq_none_iff.mp hnone).1 r hlast
      exact hne (overlayValue_eq_nil.mpr (.inl hdel))

theorem agreeAt_deleted (he : db.dbe.index[key]? = some e) (hdead : e.deleted = true) : AgreeAt db key ↔
    ∀ r, lastUnflushed db key = some r → r.deleted = true ∨ r.value = [] := by
  have hget := get_deleted he hdead
  have hslice : getSlice db key = (db.get key).1 := by
    unfold getSlice
    rw [he, hget]
    exact if_pos hdead
  have hnever : ∀ v, (db.get key).1 ≠ .ok v := by
    intro v hv
    rw [hget] at hv
    cases hv
  constructor
  · intro h r hlast
    rw [← overlayValue_eq_nil]
    by_contra hne
    have hoverlay := h.overlay (overlayValue r)
    rw [hlast] at hoverlay
    exact hnever _ (hoverlay.mp ⟨rfl, hne⟩)
  · intro h
    refine ⟨hslice, fun v => iff_of_false ?_ (hnever v), fun v hv => absurd hv (hnever v)⟩
    cases hlast : lastUnflushed db key with
    | none => exact fun hlive => not_live_of_deleted he hdead hlive.1
    | some r =>
      rintro ⟨rfl, hne⟩
      exact hne (overlayValue_eq_nil.mpr (h r hlast))

theorem deletion_alone (c s g : Option Bytes) :
    ((∀ v, c = some v → s.or (none.or g) = some v) ∧
      ∀ v, (([] : Bytes) = v ∧ v ≠ []) ↔ c.or (s.or (none.or g)) = some v) ↔
    s = none ∧ g = none ∧ c = none := by
  constructor
  · rintro ⟨-, h⟩
    have hnone : c.or (s.or (none.or g)) = none := by
      rw [Option.eq_none_iff_forall_ne_some]
      intro v hv
      obtain ⟨rfl, hne⟩ := (h v).mpr hv
      exact hne rfl
    simp only [Option.or_eq_none_iff] at hnone
    exact ⟨hnone.2.1, hnone.2.2.2, hnone.1⟩
  · rintro ⟨rfl, rfl, rfl⟩
    refine ⟨by simp, fun v => iff_of_false ?_ (by simp)⟩
    rintro ⟨rfl, hne⟩
    exact hne rfl

theorem put_alone (u : Bytes) (c s g : Option Bytes) :
    ((∀ v, c = some v → s.or ((some u).or g) = some v) ∧
      ∀ v, (u = v ∧ v ≠ []) ↔ c.or (s.or ((some u).or g)) = some v) ↔
    u ≠ [] ∧ (∀ v, s = some v → v = u) ∧ ∀ v, c = some v → v = u := by
  have hone : ∀ w : Bytes, (∀ v, (u = v ∧ v ≠ []) ↔ some w = some v) ↔ w = u ∧ u ≠ [] := by
    intro w
    constructor
    · intro h
      obtain ⟨rfl, hne⟩ := (h w).mpr rfl
      exact ⟨rfl, hne⟩
    · rintro ⟨rfl, hne⟩ v
      rw [Option.some.injEq]
      refine ⟨And.left, ?_⟩
      rintro rfl
      exact ⟨rfl, hne⟩
  rw [Option.some_or]
  cases s with
  | none =>
    cases c with
    | none =>
      rw [Option.none_or, Option.none_or, hone]
      simp
    | some d =>
      rw [Option.some_or, hone]
      simp
      grind
  | some w =>
    rw [Option.some_or]
    cases c with
    | none =>
      rw [Option.none_or, hone]
      simp
      grind
    | some d =>
      rw [Option.some_or, hone]
      simp
      grind

/-- For a live key the cache must not differ, and neither must the overlay. -/
theorem agreeAt_live (he : db.dbe.index[key]? = some e) (hlive : e.deleted = false) : AgreeAt db key ↔
    match lastUnflushed db key with
    | none => ∀ v, db.dbe.vcache.held key = some v → (stored db e).or (inSegments db key) = some v
    | some r =>
      if r.deleted then stored db e = none ∧ inSegments db key = none ∧ db.dbe.vcache.held key = none
      else r.value ≠ [] ∧ (∀ v, stored db e = some v → v = r.value) ∧
        ∀ v, db.dbe.vcache.held key = some v → v = r.value := by
  have hget := get_live he hlive
  have hslice := getSlice_live he hlive
  have hcache : getSlice db key = (db.get key).1 ↔
      ∀ v, db.dbe.vcache.held key = some v → found db key e = some v := by
    rw [hslice, hget, orNotFound_inj]
    cases db.dbe.vcache.held key with
    | none => simp
    | some u => simp
  have hvalue : ∀ v, (db.get key).1 = .ok v ↔ (db.dbe.vcache.held key).or (found db key e) = some v := by
    intro v
    rw [hget, orNotFound_eq_ok]
  have hsplit : AgreeAt db key ↔ (∀ v, db.dbe.vcache.held key = some v → found db key e = some v) ∧
      ∀ v, (match lastUnflushed db key with
        | none => (db.dbe.vcache.held key).or (found db key e) = some v
        | some r => overlayValue r = v ∧ v ≠ []) ↔ (db.dbe.vcache.held key).or (found db key e) = some v := by
    constructor
    · intro h
      refine ⟨hcache.mp h.slice, fun v => ?_⟩
      have hoverlay := h.overlay v
      rw [hvalue] at hoverlay
      cases hlast : lastUnflushed db key with
      | none => exact Iff.rfl
      | some r =>
        rw [hlast] at hoverlay
        exact hoverlay
    · rintro ⟨hheld, hoverlay⟩
      refine ⟨hcache.mpr hheld, fun v => ?_, fun _ _ => ⟨e, he, hlive⟩⟩
      have hv := hoverlay v
      rw [hvalue]
      cases hlast : lastUnflushed db key with
      | none => exact ⟨And.right, fun h => ⟨⟨e, he, hlive⟩, h⟩⟩
      | some r =>
        rw [hlast] at hv
        exact hv
  rw [hsplit]
  unfold found
  cases lastUnflushed db key with
  | none => simp
  | some r =>
    dsimp only [Option.bind_some]
    unfold overlayValue recordValue
    cases hdel : r.deleted with
    | true => exact deletion_alone _ _ _
    | false => exact put_alone _ _ _ _

/-- **The reads agree iff every key is settled.** -/
theorem readsAgree_iff_settled (hkeyed : Keyed db.dbe.index) : ReadsAgree db ↔ ∀ key, SettledAt db key := by
  rw [readsAgree_iff hkeyed]
  refine forall_congr' fun key => ?_
  unfold SettledAt
  cases he : db.dbe.index[key]? with
  | none => exact agreeAt_unknown he
  | some e =>
    dsimp only
    cases hdead : e.deleted with
    | true => exact agreeAt_deleted he hdead
    | false => exact agreeAt_live he hdead

/-! ## Databases -/

/-- The databases there are: new ones, and what calls, aborted frames and reopening make of them. -/
inductive Reachable (blake3 : Bytes → Bytes32) (cfg : Config) : DonaDbX → Prop where
  | new (n : ℕ) : Reachable blake3 cfg (.open blake3 cfg (.empty n))
  | call {w : World} (h : Reachable blake3 cfg w.db) (op : Op) : Reachable blake3 cfg (step blake3 w op).db
  | abort {db : DonaDbX} (h : Reachable blake3 cfg db) (frame : ExecutionFrame) :
    Reachable blake3 cfg (frame.abort db)
  | reopen {db : DonaDbX} (h : Reachable blake3 cfg db) : Reachable blake3 cfg (.open blake3 cfg db.close)

section
variable {blake3 : Bytes → Bytes32} {cfg : Config} {index : ShardIndex}

theorem keyed_upsert (h : Keyed index) (key : Bytes32) (offset : ℕ) (writeCount : UInt32) (logId : ℕ)
    (deleted : Bool) (valueHash : Bytes32) :
    Keyed (upsert index key offset writeCount logId deleted valueHash) := by
  intro k e he
  unfold upsert at he
  rw [getElem?_insert_ite] at he
  split at he
  case isTrue hkey =>
    obtain rfl := Option.some.inj he
    exact hkey.symm
  case isFalse => exact h k e he

theorem keyed_applyBatches (h : Keyed index) (logId : ℕ) (batch : List ShardBatchEntry) :
    Keyed (applyBatches index logId batch) := by
  unfold applyBatches
  induction batch generalizing index with
  | nil => exact h
  | cons b batch ih => exact ih (keyed_upsert h _ _ _ _ _ _)

theorem keyed_commitFoldUntil (h : Keyed index) (log : CommutativeLog) (acc : Bytes32) (endOff logId : ℕ) :
    Keyed (commitFoldUntil blake3 log index acc endOff logId).index := by
  unfold commitFoldUntil
  split
  · exact h
  · exact keyed_applyBatches h _ _

theorem keyed_foldShards (blake3 : Bytes → Bytes32) {e : DualBufferEngine} (h : Keyed e.index)
    (req : FoldReq) (order : List ℕ) :
    Keyed (foldShards blake3 req order e).1.index := by
  induction order generalizing e with
  | nil => exact h
  | cons i order ih =>
    have hone : Keyed (foldShard blake3 req e i).1.index := by
      unfold foldShard
      split
      · exact keyed_commitFoldUntil h _ _ _ _
      · exact h
    exact ih hone

theorem keyed_commit {db : DonaDbX} (h : Keyed db.dbe.index) (height : ℕ) (s : Schedule) :
    Keyed (db.commit blake3 height s).dbe.index := by
  have hfold := keyed_foldShards blake3 h (db.dbe.swap db.gen) (s.order (db.dbe.rest.length + 1))
  unfold DonaDbX.commit foldRequest
  dsimp only
  split <;> exact hfold

theorem keyed_open (disk : Disk) : Keyed (DonaDbX.open blake3 cfg disk).dbe.index := by
  have hreplay : ∀ (rs : List Record) (s : ShardIndex × Bytes32), Keyed s.1 →
      Keyed (rs.foldl (replayRecord blake3 0) s).1 := by
    intro rs
    induction rs with
    | nil => exact fun s hs => hs
    | cons r rs ih =>
      intro s hs
      refine ih _ ?_
      unfold replayRecord
      split <;> exact keyed_upsert hs _ _ _ _ _ _
  have hempty : Keyed ∅ := fun key e he => (nomatch he)
  unfold DonaDbX.open replayInto
  dsimp only
  split
  · exact hempty
  · exact hreplay _ _ hempty

theorem db_note (w : World) (res : Except DbError ℕ × DonaDbX) (x : Write) : (w.note res x).db = res.2 := by
  obtain ⟨_ | _, db⟩ := res <;> rfl

theorem index_step (w : World) {op : Op} (hop : ∀ height s, op ≠ .commit height s) :
    (step blake3 w op).db.dbe.index = w.db.dbe.index := by
  cases op with
  | put key value =>
    rw [step, db_note]
    rfl
  | delete key =>
    rw [step, db_note]
    rfl
  | writerPut shardId key value =>
    rw [step, db_note]
    unfold DonaDbX.writerPut
    dsimp only
    cases w.db.dbe.log (shardId % (w.db.dbe.rest.length + 1)) with
    | none => rfl
    | some log => exact index_setLog _ _ _
  | get key =>
    obtain ⟨c, -, hc⟩ := snd_get w.db key
    unfold step
    dsimp only
    rw [hc]
    rfl
  | commit height s => exact absurd rfl (hop height s)

/-- **The entries are filed under their own keys** in every database. -/
theorem Reachable.keyed {db : DonaDbX} (h : Reachable blake3 cfg db) : Keyed db.dbe.index := by
  induction h with
  | new n => exact keyed_open _
  | @call w _ op ih =>
    by_cases hcommit : ∃ height s, op = .commit height s
    · obtain ⟨height, s, rfl⟩ := hcommit
      exact keyed_commit ih height s
    · push Not at hcommit
      rw [index_step w hcommit]
      exact ih
  | @abort db _ frame ih =>
    unfold ExecutionFrame.abort
    split <;> exact ih
  | reopen _ _ => exact keyed_open _

end

/-- **When the reads agree**: in every database that can come about, exactly if all keys are settled. -/
theorem reads_agree_iff (blake3 : Bytes → Bytes32) (cfg : Config) (db : DonaDbX)
    (h : Reachable blake3 cfg db) : ReadsAgree db ↔ ∀ key, SettledAt db key :=
  readsAgree_iff_settled h.keyed

theorem reachable_run (blake3 : Bytes → Bytes32) (cfg : Config) (n : ℕ) (ops : List Op) :
    Reachable blake3 cfg (run (step blake3) (start blake3 cfg n) ops).db := by
  induction ops using List.reverseRecOn with
  | nil => exact .new n
  | append_singleton ops op ih =>
    rw [run_append]
    exact .call ih op

/-- Once all is folded and nothing is sealed, the cache alone can make a difference. -/
theorem settled_of_flushed (hrecords : records db.dbe.active.mmap db.dbe.active.committedOffset
      (min db.dbe.active.writeOffset db.dbe.active.capacity) = []) (hsegments : db.segments.length = 0)
    (hcache : ∀ p ∈ db.dbe.index.toList, p.2.deleted = true ∨ db.dbe.vcache.held p.1 = stored db p.2)
    (key : Bytes32) : SettledAt db key := by
  have hlast : lastUnflushed db key = none := by
    rw [lastUnflushed, hrecords, lastOf_nil]
  have hsealed : inSegments db key = none := by
    rw [inSegments, List.length_eq_zero_iff.mp hsegments]
    rfl
  unfold SettledAt
  rw [hlast, hsealed]
  cases he : db.dbe.index[key]? with
  | none => exact ⟨fun _ h => (nomatch h), rfl⟩
  | some e =>
    dsimp only
    split
    · exact fun _ h => (nomatch h)
    case isFalse hlive =>
      intro v hv
      rcases hcache (key, e) (Std.ExtTreeMap.mem_toList_iff_getElem?_eq_some.mpr he) with hdead | hsame
      · exact absurd hdead hlive
      · rw [Option.or_none, ← hsame]
        exact hv

def flushedWrites : List Op := [.put 1 [7], .put 2 [8], .commit 1 foldFirst, .delete 2, .commit 2 foldFirst]

theorem flushed_reads_agree :
    ReadsAgree (run (step sampleHash) (start sampleHash smallConfig 1) flushedWrites).db :=
  (reads_agree_iff sampleHash smallConfig _ (reachable_run sampleHash smallConfig 1 flushedWrites)).mpr
    (settled_of_flushed (by decide +kernel) (by decide +kernel) (by decide +kernel))

/-- A key that is not committed yet is read by `get` and not found by the reverse scan. -/
theorem reverse_scan_misses_unflushed : ¬ ∀ (blake3 : Bytes → Bytes32) (cfg : Config) (db : DonaDbX),
    Reachable blake3 cfg db → ReadsAgree db := by
  intro h
  have hreversed :=
    (h sampleHash smallConfig _ (reachable_run sampleHash smallConfig 0 [.put 1 [7]])).reversed 1 1 [7]
  revert hreversed
  decide +kernel

end TruthLinked.DonaDb.Scans
