import TruthLinked.DonaDb.Versions

/-! # Reading a value as of a height

`get_at` walks the chain of the key's versions in the active log, or scans the sealed segment of the
height. A record carries the height of the block before its own, a walk ends at a tombstone and leaves the
segment through the offset of an older one, and a scan knows no heights. Where none of this gets in the
way (`Legible`) it gives the last value at or below the height (`getAt_of_legible`). -/

namespace TruthLinked.DonaDb.AtHeight

open Core.Types Lib.Run Lib.Table DonaDb.Log DonaDb.Fold DonaDb.Cache DonaDb.Block DonaDb.Engine
open DonaDb.History DonaDb.Lookup DonaDb.Versions

variable {b : Block} {j : Journal} {off fuel : ℕ} {older : List (List Record)} {blake3 : Bytes → Bytes32}
  {w : World} {segs parts : List (List Record)} {pend rs : List Record} {base : Bytes32 → ℕ}
    {key : Bytes32} {height : ℕ}

/-! ## The walk -/

/-- The version of a key that a block leaves: its last put, or a tombstone (`none`). -/
def version (key : Bytes32) (rs : List Record) : Option (ℕ × Option Bytes) :=
  match lastPut rs key, lastTombstone rs key with
  | some r, _ => some (r.height, some r.value)
  | none, some t => some (t.height, none)
  | none, none => none

/-- The version that a walk over the versions, the newest first, comes to. -/
def pick (height : ℕ) : List (ℕ × Option Bytes) → Option (Option Bytes)
  | [] => none
  | (_, none) :: _ => some none
  | (h, some v) :: rest => if h ≤ height then some (some v) else pick height rest

/-- What the walk gives for a version; past the last one it depends on where the chain goes on. -/
def Walks (base : ℕ) (picked : Option (Option Bytes)) (res : Option (Except DbError Bytes)) : Prop :=
  match picked with
  | some (some v) => res = some (.ok v)
  | some none => res = some (.error .corrupt)
  | none => base = 0 → res = some (.error .notFound)

theorem version_eq_none (h : version key rs = none) : lastPut rs key = none ∧ lastTombstone rs key = none := by
  unfold version at h
  cases hput : lastPut rs key with
  | some r =>
    rw [hput] at h
    cases h
  | none =>
    cases htomb : lastTombstone rs key with
    | some t =>
      rw [hput, htomb] at h
      cases h
    | none => exact ⟨rfl, rfl⟩

theorem linked_pos {base : ℕ} (h : Linked key base older off)
    (hsome : older.filterMap (version key) ≠ []) (hpos : ∀ r ∈ older.flatten, 8 ≤ r.offset) : 8 ≤ off := by
  obtain ⟨r, hr, -, rfl⟩ := linked_touched h (by
    by_contra hnot
    push Not at hnot
    refine hsome (List.filterMap_eq_nil_iff.mpr fun rs hrs => ?_)
    have hrs' : ∀ r ∈ rs, r.key ≠ key := fun r hr => hnot r (List.mem_flatten.mpr ⟨rs, hrs, hr⟩)
    have hput : lastPut rs key = none := lastOf_eq_none.mpr fun r hr => hrs' r (List.mem_filter.mp hr).1
    have htomb : lastTombstone rs key = none :=
      lastOf_eq_none.mpr fun r hr => hrs' r (List.mem_filter.mp hr).1
    rw [version, hput, htomb])
  exact hpos r hr

/-- **The walk comes to the version that it should.** -/
theorem chainWalk_versions {log : CommutativeLog} {base : ℕ}
    (h : Linked key base older off) (hsome : older.filterMap (version key) ≠ [])
    (hlog : ∀ r ∈ older.flatten, decode log.mmap r.offset = some r ∧ 8 ≤ r.offset ∧
      r.offset + r.total ≤ log.capacity) (hfuel : older.length < fuel) :
    Walks base (pick height (older.filterMap (version key))) (chainWalk log height fuel off) := by
  induction older generalizing off fuel with
  | nil => exact absurd rfl hsome
  | cons rs older ih =>
    have hrest : ∀ r ∈ older.flatten, decode log.mmap r.offset = some r ∧ 8 ≤ r.offset ∧
        r.offset + r.total ≤ log.capacity := by
      intro r hr
      rw [List.flatten_cons] at hlog
      exact hlog r (List.mem_append_right _ hr)
    have hhere : ∀ r ∈ rs, decode log.mmap r.offset = some r ∧ 8 ≤ r.offset ∧
        r.offset + r.total ≤ log.capacity := by
      intro r hr
      rw [List.flatten_cons] at hlog
      exact hlog r (List.mem_append_left _ hr)
    rw [List.length_cons] at hfuel
    rw [Linked] at h
    rw [List.filterMap_cons] at hsome ⊢
    obtain ⟨fuel, rfl⟩ : ∃ k, fuel = k + 1 := ⟨fuel - 1, by omega⟩
    cases hput : lastPut rs key with
    | some r =>
      rw [hput] at h
      have hversion : version key rs = some (r.height, some r.value) := by
        rw [version, hput]
      obtain ⟨rfl, hlinked⟩ := h
      obtain ⟨hin, hput', -⟩ := lastPut_mem hput
      obtain ⟨hdecode, -, hroom⟩ := hhere r hin
      have htotal : chdr + 32 ≤ r.total := by
        unfold Record.total
        omega
      have hok : ¬ (r.deleted = true ∨ log.capacity < r.offset + (chdr + 32)) := by
        rw [hput']
        simp only [Bool.false_eq_true, false_or]
        omega
      rw [hversion]
      dsimp only
      rw [pick, chainWalk, hdecode]
      dsimp only
      rw [if_neg hok]
      by_cases hle : r.height ≤ height
      · rw [if_pos hle, if_pos hle, if_pos hroom]
        rfl
      · rw [if_neg hle, if_neg hle]
        by_cases hnone : older.filterMap (version key) = []
        · have hbase := (linked_untouched fun rs hrs =>
            version_eq_none (List.filterMap_eq_nil_iff.mp hnone rs hrs)).mp hlinked
          rw [hnone, pick, hbase]
          intro hzero
          rw [if_pos hzero]
        · have hpos := linked_pos hlinked hnone fun r hr => (hrest r hr).2.1
          rw [if_neg (by omega)]
          exact ih hlinked hnone hrest (by omega)
    | none =>
      cases htomb : lastTombstone rs key with
      | some t =>
        rw [hput, htomb] at h
        have hversion : version key rs = some (t.height, none) := by
          rw [version, hput, htomb]
        obtain ⟨ht, -⟩ := lastOf_mem htomb
        obtain ⟨hin, hdel⟩ := List.mem_filter.mp ht
        obtain ⟨hdecode, -, -⟩ := hhere t hin
        obtain rfl : off = t.offset := h
        rw [hversion]
        dsimp only
        rw [pick, chainWalk, hdecode]
        exact if_pos (.inl hdel)
      | none =>
        rw [hput, htomb] at h
        have hversion : version key rs = none := by
          rw [version, hput, htomb]
        rw [hversion] at hsome ⊢
        exact ih h hsome hrest (by omega)

/-! ## Blocks -/

/-- The block writes the key. -/
def Touches (key : Bytes32) (b : Block) : Prop := ∃ x ∈ b.writes, x.key = key

instance (key : Bytes32) : DecidablePred (Touches key) := fun b =>
  inferInstanceAs (Decidable (∃ x ∈ b.writes, x.key = key))

/-- The value of the block's last put of the key. -/
def putIn (key : Bytes32) (b : Block) : Option Bytes :=
  liveValue (b.writes.filter fun x => x.value.isSome) key

/-- The block deletes the key and does not put it. -/
def Erases (key : Bytes32) (b : Block) : Prop := Touches key b ∧ putIn key b = none

instance (key : Bytes32) : DecidablePred (Erases key) := fun b =>
  inferInstanceAs (Decidable (Touches key b ∧ putIn key b = none))

/-- The version of a key that a block leaves, in terms of the writes. -/
def versionOf (key : Bytes32) (height : ℕ) (b : Block) : Option (ℕ × Option Bytes) :=
  if Touches key b then some (height, putIn key b) else none

theorem putIn_eq (h : rs.map toWrite = b.writes) (key : Bytes32) :
    putIn key b = (lastPut rs key).map Record.value := by
  have hfilter : (rs.map toWrite).filter (fun x => x.value.isSome) =
      (rs.filter fun r => !r.deleted).map toWrite := by
    rw [List.filter_map]
    congr 2
    funext r
    cases hd : r.deleted <;> simp [toWrite, hd]
  unfold putIn liveValue
  rw [← h, hfilter, lastOf_toWrite]
  change ((lastPut rs key).map toWrite).bind Write.value = _
  cases hput : lastPut rs key with
  | none => rfl
  | some r =>
    have hd := (lastPut_mem hput).2.1
    simp [toWrite, hd]

theorem touches_iff (h : rs.map toWrite = b.writes) (key : Bytes32) :
    Touches key b ↔ ∃ r ∈ rs, r.key = key := by
  unfold Touches
  rw [← h]
  constructor
  · rintro ⟨x, hx, hkey⟩
    obtain ⟨r, hr, rfl⟩ := List.mem_map.mp hx
    exact ⟨r, hr, hkey⟩
  · rintro ⟨r, hr, hkey⟩
    exact ⟨toWrite r, List.mem_map_of_mem hr, hkey⟩

theorem version_eq (h : rs.map toWrite = b.writes) (hheight : ∀ r ∈ rs, r.height = height)
    (key : Bytes32) : version key rs = versionOf key height b := by
  unfold version versionOf
  rw [putIn_eq h]
  cases hput : lastPut rs key with
  | some r =>
    obtain ⟨hr, -, hkey⟩ := lastPut_mem hput
    rw [if_pos ((touches_iff h key).mpr ⟨r, hr, hkey⟩), ← hheight r hr]
    rfl
  | none =>
    cases htomb : lastTombstone rs key with
    | some t =>
      obtain ⟨ht, hkey⟩ := lastOf_mem htomb
      have ht := (List.mem_filter.mp ht).1
      rw [if_pos ((touches_iff h key).mpr ⟨t, ht, hkey⟩), ← hheight t ht]
      rfl
    | none =>
      rw [if_neg]
      intro htouch
      obtain ⟨r, hr, hkey⟩ := (touches_iff h key).mp htouch
      have hd := lastTombstone_eq_none.mp htomb r hr hkey
      exact lastOf_eq_none.mp hput r (List.mem_filter.mpr ⟨hr, by simp [hd]⟩) hkey

/-- Every block with the height of the one before it. -/
def stamps : ℕ → List Block → List (ℕ × Block)
  | _, [] => []
  | height, b :: blocks => (height, b) :: stamps b.height blocks

theorem stamps_append (height : ℕ) (blocks blocks' : List Block) :
    stamps height (blocks ++ blocks') = stamps height blocks ++ stamps (lastHeight height blocks) blocks' := by
  induction blocks generalizing height with
  | nil => rfl
  | cons b blocks ih =>
    have hlast : lastHeight height (b :: blocks) = lastHeight b.height blocks := by
      rw [← List.singleton_append, lastHeight_append]
      rfl
    rw [List.cons_append, stamps, ih, hlast]
    rfl

theorem mem_stamps {p : ℕ × Block} {blocks : List Block} (h : p ∈ stamps height blocks) :
    p.2 ∈ blocks ∧ (p.1 = height ∨ ∃ b ∈ blocks, p.1 = b.height) := by
  induction blocks generalizing height with
  | nil => cases h
  | cons b blocks ih =>
    rcases List.mem_cons.mp h with rfl | h
    · exact ⟨List.mem_cons_self, .inl rfl⟩
    · obtain ⟨hin, hstamp⟩ := ih h
      refine ⟨List.mem_cons_of_mem b hin, .inr ?_⟩
      rcases hstamp with hstamp | ⟨b', hb', hstamp⟩
      · exact ⟨b, List.mem_cons_self, hstamp⟩
      · exact ⟨b', List.mem_cons_of_mem b hb', hstamp⟩

theorem versions_eq {blocks : List Block} (h : Stamped height parts blocks) (hheight : height < 2 ^ 64)
    (hsmall : ∀ b ∈ blocks, b.height < 2 ^ 64) (key : Bytes32) :
    parts.map (version key) = (stamps height blocks).map fun p => versionOf key p.1 p.2 := by
  induction parts generalizing height blocks with
  | nil =>
    cases blocks with
    | nil => rfl
    | cons => cases h
  | cons rs parts ih =>
    cases blocks with
    | nil => cases h
    | cons b blocks =>
      obtain ⟨hwrites, hstamp, hrest⟩ := h
      obtain ⟨hb, hblocks⟩ := List.forall_mem_cons.mp hsmall
      rw [Nat.mod_eq_of_lt hheight] at hstamp
      rw [List.map_cons, stamps, List.map_cons, version_eq hwrites hstamp, ih hrest hb hblocks]

/-! ## Which version is picked -/

/-- Versions stamped above the height are passed over up to a tombstone. -/
theorem pick_above {xs ys : List (ℕ × Option Bytes)} (h : ∀ p ∈ xs, height < p.1) :
    pick height (xs ++ ys) = if ∃ p ∈ xs, p.2 = none then some none else pick height ys := by
  induction xs with
  | nil => rw [List.nil_append, if_neg (by simp)]
  | cons p xs ih =>
    obtain ⟨hp, hxs⟩ := List.forall_mem_cons.mp h
    obtain ⟨stamp, v⟩ := p
    rw [List.cons_append]
    cases v with
    | none =>
      rw [if_pos ⟨(stamp, none), List.mem_cons_self, rfl⟩]
      rfl
    | some v =>
      rw [pick, if_neg (by dsimp only at hp; omega), ih hxs]
      exact if_congr (by simp) rfl rfl

theorem pick_below {xs : List (ℕ × Option Bytes)} (h : ∀ p ∈ xs, p.1 ≤ height) :
    pick height xs = xs.head?.map Prod.snd := by
  cases xs with
  | nil => rfl
  | cons p xs =>
    obtain ⟨stamp, v⟩ := p
    cases v with
    | none => rfl
    | some v => exact if_pos (h _ List.mem_cons_self)

/-- The last block that writes the key. -/
def lastTouching (key : Bytes32) (blocks : List Block) : Option Block :=
  (blocks.filter fun b => Touches key b).getLast?

theorem lastTouching_concat (key : Bytes32) (blocks : List Block) (b : Block) :
    lastTouching key (blocks ++ [b]) = if Touches key b then some b else lastTouching key blocks := by
  unfold lastTouching
  rw [List.filter_append]
  by_cases htouch : Touches key b
  · rw [if_pos htouch, List.filter_cons_of_pos (by simpa using htouch), List.filter_nil,
      List.getLast?_append]
    rfl
  · rw [if_neg htouch, List.filter_cons_of_neg (by simpa using htouch), List.filter_nil, List.append_nil]

theorem head_versions (key : Bytes32) (height : ℕ) (blocks : List Block) :
    (((stamps height blocks).reverse.filterMap fun p => versionOf key p.1 p.2).head?.map Prod.snd) =
      (lastTouching key blocks).map (putIn key) := by
  induction blocks using List.reverseRecOn with
  | nil => rfl
  | append_singleton blocks b ih =>
    rw [stamps_append, List.reverse_append, List.filterMap_append, lastTouching_concat]
    change (((versionOf key (lastHeight height blocks) b).toList ++ _).head?.map Prod.snd) = _
    unfold versionOf
    split
    · rfl
    · exact ih

theorem lastOf_writesOf (key : Bytes32) (blocks : List Block) :
    lastOf Write.key key (writesOf blocks) =
      (lastTouching key blocks).bind fun b => lastOf Write.key key b.writes := by
  induction blocks using List.reverseRecOn with
  | nil => rfl
  | append_singleton blocks b ih =>
    have hwrites : writesOf (blocks ++ [b]) = writesOf blocks ++ b.writes := by
      simp [writesOf]
    rw [hwrites, lastOf_append, lastTouching_concat, ih]
    cases hlast : lastOf Write.key key b.writes with
    | none =>
      rw [if_neg, Option.none_or]
      rintro ⟨x, hx, hkey⟩
      exact lastOf_eq_none.mp hlast x hx hkey
    | some x =>
      obtain ⟨hx, hkey⟩ := lastOf_mem hlast
      rw [if_pos ⟨x, hx, hkey⟩, Option.some_or, Option.bind_some, hlast]

/-! ## What can be read -/

/-- The blocks of a height and below. -/
def upTo (height : ℕ) (blocks : List Block) : List Block := blocks.filter fun b => b.height ≤ height

/-- The blocks above a height. -/
def above (height : ℕ) (blocks : List Block) : List Block := blocks.filter fun b => height < b.height

/-- All committed blocks. -/
def allBlocks (j : Journal) : List Block := j.segments.flatten ++ j.blocks

/-- The writes that are committed at the height or below. -/
def writesAt (j : Journal) (height : ℕ) : List Write := writesOf (upTo height (allBlocks j))

/-- In the active segment: a later block that only deletes the key ends the walk; otherwise the block
right after the height must not write the key, and the last block up to the height that does must not
delete it after a put. A value of an older segment is out of reach. -/
def LegibleActive (j : Journal) (key : Bytes32) (height : ℕ) : Prop :=
  if ∃ b ∈ above height j.blocks, Erases key b then liveValue (writesAt j height) key = none
  else (∀ b ∈ (above height j.blocks).head?, ¬ Touches key b) ∧
    (∀ b ∈ lastTouching key (upTo height j.blocks), putIn key b = liveValue b.writes key) ∧
    (lastTouching key (upTo height j.blocks) = none →
      if ∃ b ∈ above height j.blocks, Touches key b then ∀ b ∈ j.segments.flatten, ¬ Touches key b
      else liveValue (writesOf j.segments.flatten) key = none)

/-- In a sealed segment: the writes of the key in front of the first deletion are those up to the height,
or there are none and the key is not live. -/
def LegibleSealed (j : Journal) (key : Bytes32) (height : ℕ) (blocks : List Block) : Prop :=
  let front := (writesOf blocks).takeWhile fun x => x.value.isSome
  if ∃ x ∈ front, x.key = key then
    front.filter (fun x => x.key = key) = (writesOf (upTo height blocks)).filter fun x => x.key = key
  else liveValue (writesAt j height) key = none

/-- **The value of the key at the height can be read.** -/
def Legible (j : Journal) (key : Bytes32) (height : ℕ) : Prop :=
  ((∃ b ∈ j.blocks, b.height = height) → LegibleActive j key height) ∧
  ∀ blocks ∈ j.segments, (∃ b ∈ blocks, b.height = height) → LegibleSealed j key height blocks

/-! ## The active segment -/

section
variable {blocks : List Block}

/-- The heights rise. -/
def Rising (blocks : List Block) : Prop := blocks.Pairwise fun b b' => b.height < b'.height

theorem Rising.cut (h : Rising blocks) (height : ℕ) : blocks = upTo height blocks ++ above height blocks := by
  induction blocks with
  | nil => rfl
  | cons b blocks ih =>
    obtain ⟨hb, hblocks⟩ := List.pairwise_cons.mp h
    unfold upTo above
    by_cases hle : b.height ≤ height
    · rw [List.filter_cons_of_pos (by simpa using hle), List.filter_cons_of_neg (by simpa using hle),
        List.cons_append]
      exact congrArg _ (ih hblocks)
    · have hall : ∀ b' ∈ blocks, height < b'.height := fun b' hb' => by
        have := hb b' hb'
        omega
      have hnone : (b :: blocks).filter (fun b => decide (b.height ≤ height)) = [] := by
        refine List.filter_eq_nil_iff.mpr fun b' hb' => ?_
        simp only [decide_eq_true_eq, not_le]
        rcases List.mem_cons.mp hb' with rfl | hb'
        · omega
        · exact hall b' hb'
      have hsame : (b :: blocks).filter (fun b => decide (height < b.height)) = b :: blocks := by
        refine List.filter_eq_self.mpr fun b' hb' => ?_
        simp only [decide_eq_true_eq]
        rcases List.mem_cons.mp hb' with rfl | hb'
        · omega
        · exact hall b' hb'
      rw [hnone, hsame]
      rfl

theorem mem_upTo : b ∈ upTo height blocks ↔ b ∈ blocks ∧ b.height ≤ height := by
  simp [upTo]

theorem mem_above : b ∈ above height blocks ↔ b ∈ blocks ∧ height < b.height := by
  simp [above]

/-- The versions of some blocks, the newest first. -/
def newestFirst (key : Bytes32) (start : ℕ) (blocks : List Block) : List (ℕ × Option Bytes) :=
  (stamps start blocks).reverse.filterMap fun p => versionOf key p.1 p.2

theorem newestFirst_append (key : Bytes32) (start : ℕ) (blocks blocks' : List Block) :
    newestFirst key start (blocks ++ blocks') =
      newestFirst key (lastHeight start blocks) blocks' ++ newestFirst key start blocks := by
  unfold newestFirst
  rw [stamps_append, List.reverse_append, List.filterMap_append]

theorem mem_newestFirst {start : ℕ} {p : ℕ × Option Bytes} (h : p ∈ newestFirst key start blocks) :
    ∃ b ∈ blocks, Touches key b ∧ p.2 = putIn key b ∧ (p.1 = start ∨ ∃ b' ∈ blocks, p.1 = b'.height) := by
  obtain ⟨q, hq, hqp⟩ := List.mem_filterMap.mp h
  obtain ⟨hin, hstamp⟩ := mem_stamps (List.mem_reverse.mp hq)
  unfold versionOf at hqp
  split at hqp
  case isTrue htouch =>
    obtain rfl := Option.some.inj hqp
    exact ⟨q.2, hin, htouch, rfl, hstamp⟩
  case isFalse => cases hqp

theorem exists_newestFirst (start : ℕ) (hb : b ∈ blocks) (htouch : Touches key b) :
    ∃ p ∈ newestFirst key start blocks, p.2 = putIn key b := by
  obtain ⟨older, newer, rfl⟩ := List.append_of_mem hb
  refine ⟨(lastHeight start older, putIn key b), ?_, rfl⟩
  rw [newestFirst_append]
  refine List.mem_append_left _ (List.mem_filterMap.mpr ⟨(lastHeight start older, b), ?_, if_pos htouch⟩)
  exact List.mem_reverse.mpr List.mem_cons_self

theorem erased_iff (key : Bytes32) (start : ℕ) (blocks : List Block) :
    (∃ p ∈ newestFirst key start blocks, p.2 = none) ↔ ∃ b ∈ blocks, Erases key b := by
  constructor
  · rintro ⟨p, hp, hnone⟩
    obtain ⟨b, hb, htouch, hput, -⟩ := mem_newestFirst hp
    exact ⟨b, hb, htouch, hput.symm.trans hnone⟩
  · rintro ⟨b, hb, htouch, hnone⟩
    obtain ⟨p, hp, hput⟩ := exists_newestFirst start hb htouch
    exact ⟨p, hp, hput.trans hnone⟩

theorem lastHeight_upTo {start : ℕ} (hstart : start ≤ height) (blocks : List Block) :
    lastHeight start (upTo height blocks) ≤ height := by
  unfold lastHeight
  cases hlast : (upTo height blocks).getLast? with
  | none => exact hstart
  | some b => exact (mem_upTo.mp (List.mem_of_getLast? hlast)).2

theorem pick_upTo {start : ℕ} (hstart : start ≤ height) (key : Bytes32) (blocks : List Block) :
    pick height (newestFirst key start (upTo height blocks)) =
      (lastTouching key (upTo height blocks)).map (putIn key) := by
  rw [pick_below, newestFirst, head_versions]
  intro p hp
  obtain ⟨-, -, -, -, hstamp | ⟨b, hb, hstamp⟩⟩ := mem_newestFirst hp
  · omega
  · have := (mem_upTo.mp hb).2
    omega

/-- **The version picked in the active segment**: a later block that only deletes the key ends the walk,
and the block right after the height is taken for one of the height. -/
theorem pick_active (h : Rising blocks) {start : ℕ} (hstart : start ≤ height) (key : Bytes32) :
    pick height (newestFirst key start blocks) =
      if ∃ b ∈ above height blocks, Erases key b then some none
      else match (above height blocks).head?.filter fun b => Touches key b with
        | some b => some (putIn key b)
        | none => (lastTouching key (upTo height blocks)).map (putIn key) := by
  have hcut := h.cut height
  have hlast := lastHeight_upTo hstart blocks
  rw [← pick_upTo hstart]
  conv_lhs => rw [hcut, newestFirst_append]
  cases habove : above height blocks with
  | nil =>
    rw [if_neg (by simp)]
    rfl
  | cons b rest =>
    have hheights : ∀ b' ∈ b :: rest, height < b'.height := by
      rw [← habove]
      exact fun b' hb' => (mem_above.mp hb').2
    obtain ⟨hb, hrest⟩ := List.forall_mem_cons.mp hheights
    -- the stamps of all later blocks but the first are above the height
    have hhigh : ∀ p ∈ newestFirst key b.height rest, height < p.1 := by
      intro p hp
      obtain ⟨-, -, -, -, hstamp | ⟨b', hb', hstamp⟩⟩ := mem_newestFirst hp
      · omega
      · have := hrest b' hb'
        omega
    have hsplit : newestFirst key (lastHeight start (upTo height blocks)) (b :: rest) =
        newestFirst key b.height rest ++ (versionOf key (lastHeight start (upTo height blocks)) b).toList := by
      rw [← List.singleton_append, newestFirst_append]
      congr 1
    rw [hsplit, List.append_assoc, pick_above hhigh]
    simp only [erased_iff, List.exists_mem_cons_iff, List.head?_cons]
    by_cases hrestErased : ∃ b' ∈ rest, Erases key b'
    · rw [if_pos hrestErased, if_pos (.inr hrestErased)]
    rw [if_neg hrestErased]
    unfold versionOf
    by_cases htouch : Touches key b
    · rw [if_pos htouch, Option.toList_some, List.singleton_append,
        Option.filter_some_pos (by simpa using htouch)]
      cases hput : putIn key b with
      | none => rw [if_pos (.inl ⟨htouch, hput⟩), pick]
      | some v =>
        rw [if_neg, pick, if_pos hlast]
        · exact congrArg some hput.symm
        rintro (⟨-, hnone⟩ | herased)
        · rw [hput] at hnone
          cases hnone
        · exact hrestErased herased
    · rw [if_neg htouch, if_neg, Option.filter_some_neg (by simpa using htouch)]
      · rfl
      · rintro (⟨htouch', -⟩ | herased)
        · exact htouch htouch'
        · exact hrestErased herased

end

/-! ## The order of the segments -/

/-- The segment's range has the heights of the blocks. -/
def Covers (seg : SealedSegment) (blocks : List Block) : Prop :=
  ∀ b ∈ blocks, seg.info.minHeight ≤ b.height ∧ b.height ≤ seg.info.maxHeight

/-- The heights of the blocks rise, and so do the ranges of the segments they lie in. -/
structure Ordered (w : World) : Prop where
  rising : Rising (allBlocks w.journal)
  small : ∀ b ∈ allBlocks w.journal, b.height < 2 ^ 64
  covers : List.Forall₂ Covers w.db.segments w.journal.segments
  apart : w.db.segments.Pairwise fun seg seg' => seg.info.maxHeight < seg'.info.minHeight
  below : ∀ seg ∈ w.db.segments, seg.info.maxHeight < w.db.activeMin
  active : ∀ b ∈ w.journal.blocks, w.db.activeMin ≤ b.height
  floor : ∀ height, (∀ b ∈ allBlocks w.journal, b.height < height) → w.db.activeMin ≤ height

/-- Only shard 0 is written, and every commit is at a height above all committed ones. -/
def Climbs (w : World) (op : Op) : Prop :=
  Plain w op ∧ match op with
    | .commit height _ => height + 1 < 2 ^ 64 ∧ ∀ b ∈ allBlocks w.journal, b.height < height
    | _ => True

theorem ordered_start (blake3 : Bytes → Bytes32) (cfg : Config) (n : ℕ) : Ordered (start blake3 cfg n) := by
  unfold start
  rw [open_new]
  exact ⟨.nil, by simp [allBlocks], .nil, .nil, by simp, by simp, fun height _ => Nat.zero_le height⟩

theorem Ordered.of_same {w' : World} (h : Ordered w) (hsegments : w'.db.segments = w.db.segments)
    (hmanifest : w'.db.manifest = w.db.manifest) (hsealed : w'.journal.segments = w.journal.segments)
    (hblocks : w'.journal.blocks = w.journal.blocks) : Ordered w' := by
  have hall : allBlocks w'.journal = allBlocks w.journal := by
    unfold allBlocks
    rw [hsealed, hblocks]
  have hmin : w'.db.activeMin = w.db.activeMin := by
    unfold DonaDbX.activeMin
    rw [hmanifest]
  constructor
  · rw [hall]
    exact h.rising
  · rw [hall]
    exact h.small
  · rw [hsegments, hsealed]
    exact h.covers
  · rw [hsegments]
    exact h.apart
  · rw [hsegments, hmin]
    exact h.below
  · rw [hblocks, hmin]
    exact h.active
  · rw [hall, hmin]
    exact h.floor

theorem Ordered.writes {w' : World} {x : Write} {c : ValueCache} (h : Ordered w) (hw : Writes w x c w') :
    Ordered w' := by
  cases hw <;> exact h.of_same rfl rfl rfl rfl

theorem allBlocks_commit (j : Journal) (height : ℕ) (rotated : Bool) :
    allBlocks (j.commit height rotated) = allBlocks j ++ [⟨height, j.pending⟩] := by
  cases rotated <;> simp [Journal.commit, allBlocks]

theorem activeMin_rotate (db : DonaDbX) (height actual : ℕ) :
    (db.rotate height actual).activeMin = height + 1 := by
  have hnone : (db.manifest.segments.filter SegmentMeta.isSealed).find? (fun m => !m.isSealed) = none := by
    rw [List.find?_eq_none]
    intro m hm
    simp [(List.mem_filter.mp hm).2]
  unfold DonaDbX.activeMin DonaDbX.rotate
  dsimp only
  rw [List.find?_append, List.find?_append, hnone]
  rfl

theorem rising_concat {blocks : List Block} (h : Rising blocks)
    (hall : ∀ b' ∈ blocks, b'.height < b.height) : Rising (blocks ++ [b]) := by
  refine List.pairwise_append.mpr ⟨h, List.pairwise_singleton _ _, fun b' hb' b'' hb'' => ?_⟩
  obtain rfl := List.mem_singleton.mp hb''
  exact hall b' hb'

section
variable {s : Schedule}

theorem Ordered.journal (h : Ordered w) (rotated : Bool) (hheight : height + 1 < 2 ^ 64)
    (hall : ∀ b ∈ allBlocks w.journal, b.height < height) :
    Rising (allBlocks (w.journal.commit height rotated)) ∧
      ∀ b ∈ allBlocks (w.journal.commit height rotated), b.height < 2 ^ 64 := by
  rw [allBlocks_commit]
  refine ⟨rising_concat h.rising hall, fun b hb => ?_⟩
  rcases List.mem_append.mp hb with hb | hb
  · exact h.small b hb
  · obtain rfl := List.mem_singleton.mp hb
    exact Nat.lt_of_succ_lt hheight

theorem Ordered.concat (h : Ordered w) (hall : ∀ b ∈ allBlocks w.journal, b.height < height) :
    ∀ b ∈ w.journal.blocks ++ [⟨height, w.journal.pending⟩], w.db.activeMin ≤ b.height ∧ b.height ≤ height := by
  intro b hb
  rcases List.mem_append.mp hb with hb | hb
  · exact ⟨h.active b hb, (hall b (List.mem_append_right _ hb)).le⟩
  · obtain rfl := List.mem_singleton.mp hb
    exact ⟨h.floor height hall, le_rfl⟩

theorem Ordered.commit (blake3 : Bytes → Bytes32) (h : Ordered w) (htracks : Tracks w segs rs pend)
    (hrot : w.rotates = false) (hheight : height + 1 < 2 ^ 64)
    (hall : ∀ b ∈ allBlocks w.journal, b.height < height) :
    Ordered (step blake3 w (.commit height s)) := by
  obtain ⟨hrising, hsmall⟩ := h.journal false hheight hall
  rw [step_commit htracks hrot]
  refine ⟨hrising, hsmall, h.covers, h.apart, h.below, fun b hb => (h.concat hall b hb).1, ?_⟩
  intro height' hall'
  rw [allBlocks_commit] at hall'
  exact h.floor height' fun b hb => hall' b (List.mem_append_left _ hb)

theorem Ordered.commitRotate (blake3 : Bytes → Bytes32) (h : Ordered w) (htracks : Tracks w segs rs pend)
    (hrot : w.rotates = true) (hheight : height + 1 < 2 ^ 64)
    (hall : ∀ b ∈ allBlocks w.journal, b.height < height) :
    Ordered (step blake3 w (.commit height s)) := by
  obtain ⟨hrising, hsmall⟩ := h.journal true hheight hall
  obtain ⟨c, hc⟩ : ∃ c, step blake3 w (.commit height s) = _ := step_commit_rotate htracks hrot height s
  have hfloor := h.floor height hall
  rw [hc]
  have hmin := activeMin_rotate (afterFold blake3 w height c) height w.db.dbe.active.writeOffset
  have hsegments : ((afterFold blake3 w height c).rotate height w.db.dbe.active.writeOffset).segments =
      w.db.segments ++ [⟨⟨w.db.manifest.nextId, true, w.db.dbe.active.writeOffset, w.db.activeMin, height⟩,
        (w.folded blake3).log.mmap⟩] := rfl
  refine ⟨hrising, hsmall, ?_, ?_, ?_, by simp [Journal.commit], ?_⟩
  · exact List.rel_append h.covers (.cons (h.concat hall) .nil)
  · refine List.pairwise_append.mpr ⟨h.apart, List.pairwise_singleton _ _, fun seg hseg seg' hseg' => ?_⟩
    obtain rfl := List.mem_singleton.mp hseg'
    exact h.below seg hseg
  · intro seg hseg
    change seg.info.maxHeight < DonaDbX.activeMin (DonaDbX.rotate _ _ _)
    rw [hmin]
    change seg ∈ ((afterFold blake3 w height c).rotate height w.db.dbe.active.writeOffset).segments at hseg
    rw [hsegments] at hseg
    rcases List.mem_append.mp hseg with hseg | hseg
    · have := h.below seg hseg
      omega
    · obtain rfl := List.mem_singleton.mp hseg
      exact Nat.lt_succ_self height
  · intro height' hall'
    rw [allBlocks_commit] at hall'
    change DonaDbX.activeMin (DonaDbX.rotate _ _ _) ≤ height'
    rw [hmin]
    exact hall' _ (List.mem_append_right _ List.mem_cons_self)

end

/-- **A call keeps the order.** -/
theorem Ordered.step (blake3 : Bytes → Bytes32) {op : Op} (h : Ordered w) (htracks : Tracks w segs rs pend)
    (hop : Climbs w op) : Ordered (step blake3 w op) := by
  obtain ⟨hplain, hclimbs⟩ := hop
  cases op with
  | put key value => exact h.writes (writes_put w hplain)
  | delete key => exact h.writes (writes_delete w key)
  | writerPut shardId key value =>
    rw [step_writerPut hplain.1]
    exact h.writes (writes_put w hplain.2)
  | get key =>
    obtain ⟨c, -, hc⟩ := snd_get w.db key
    rw [History.step, hc]
    exact h.of_same rfl rfl rfl rfl
  | commit height s =>
    cases hrot : w.rotates with
    | false => exact h.commit blake3 htracks hrot hclimbs.1 hclimbs.2
    | true => exact h.commitRotate blake3 htracks hrot hclimbs.1 hclimbs.2

/-! ## The sealed segments -/

theorem Ordered.getAtSealed_active (h : Ordered w) (hheight : w.db.activeMin ≤ height) (key : Bytes32) :
    w.db.getAtSealed key height = .error .notFound := by
  unfold DonaDbX.getAtSealed
  rw [List.findSome?_eq_none_iff.mpr]
  · rfl
  intro seg hseg
  have hbelow := h.below seg (List.mem_reverse.mp hseg)
  split
  · rfl
  · exact if_pos (.inr (by omega))

theorem find_apart {segments : List SealedSegment} {seg : SealedSegment}
    (h : segments.Pairwise fun seg seg' => seg.info.maxHeight < seg'.info.minHeight) (hseg : seg ∈ segments)
    (hmin : seg.info.minHeight ≤ height) (hmax : height ≤ seg.info.maxHeight) (key : Bytes32) :
    (segments.reverse.findSome? fun seg =>
      if height < seg.info.minHeight then none else seg.getAt key height) = seg.getAt key height := by
  induction segments with
  | nil => cases hseg
  | cons seg' segments ih =>
    obtain ⟨hhead, htail⟩ := List.pairwise_cons.mp h
    rw [List.reverse_cons, List.findSome?_append]
    rcases List.mem_cons.mp hseg with rfl | hseg
    · rw [List.findSome?_eq_none_iff.mpr]
      · rw [Option.none_or, List.findSome?_cons, List.findSome?_nil, if_neg (by omega)]
        cases seg.getAt key height <;> rfl
      intro later hlater
      have := hhead later (List.mem_reverse.mp hlater)
      exact if_pos (by omega)
    · have hlate := hhead seg hseg
      have hnone : seg'.getAt key height = none := if_pos (.inr (by omega))
      rw [ih htail hseg, List.findSome?_cons, hnone, ite_self, List.findSome?_nil, Option.or_none]

/-- **A read of a sealed height** is a scan of its segment. -/
theorem Ordered.getAtSealed_inside (h : Ordered w) (htracks : Tracks w segs rs pend) {blocks : List Block}
    (hblocks : blocks ∈ w.journal.segments) (hin : ∃ b ∈ blocks, b.height = height) (key : Bytes32) :
    height < w.db.activeMin ∧ w.db.getAtSealed key height =
      orNotFound (liveValue ((writesOf blocks).takeWhile fun x => x.value.isSome) key) := by
  obtain ⟨i, hi, rfl⟩ := List.getElem_of_mem hblocks
  obtain ⟨hlen, hcovers⟩ := List.forall₂_iff_get.mp h.covers
  obtain ⟨hlen', hholds⟩ := List.forall₂_iff_get.mp htracks.sealed
  have hi' : i < w.db.segments.length := by omega
  have hi'' : i < segs.length := by omega
  obtain ⟨b, hb, rfl⟩ := hin
  obtain ⟨hmin, hmax⟩ := hcovers i hi' hi b hb
  have hwrites : segs[i].map toWrite = writesOf w.journal.segments[i] := by
    have hmaps := congrArg (fun l => l[i]?) htracks.segments
    rw [List.getElem?_map, List.getElem?_map, List.getElem?_eq_getElem hi'', List.getElem?_eq_getElem hi] at hmaps
    exact Option.some.inj hmaps
  have hbelow := h.below _ (List.getElem_mem hi')
  refine ⟨lt_of_le_of_lt hmax hbelow, ?_⟩
  have hread : w.db.segments[i].getAt key b.height = scanned key segs[i] :=
    getAt_of_holds (hholds i hi' hi'') hmin hmax key
  unfold DonaDbX.getAtSealed
  rw [find_apart h.apart (List.getElem_mem hi') hmin hmax, hread, scanned_eq, hwrites]

/-! ## The writes up to a height -/

theorem upTo_append (height : ℕ) (blocks blocks' : List Block) :
    upTo height (blocks ++ blocks') = upTo height blocks ++ upTo height blocks' := List.filter_append ..

theorem writesOf_append (blocks blocks' : List Block) :
    writesOf (blocks ++ blocks') = writesOf blocks ++ writesOf blocks' := List.flatMap_append ..

theorem lastOf_writesAt_sealed {blocks : List Block} (h : Rising (allBlocks j))
    (hblocks : blocks ∈ j.segments) (hin : ∃ b ∈ blocks, b.height = height) (key : Bytes32) :
    ∃ o, lastOf Write.key key (writesAt j height) =
      (lastOf Write.key key (writesOf (upTo height blocks))).or o := by
  obtain ⟨older, newer, hsplit⟩ := List.append_of_mem hblocks
  have hall : allBlocks j = older.flatten ++ (blocks ++ (newer.flatten ++ j.blocks)) := by
    rw [allBlocks, hsplit]
    simp
  rw [hall] at h
  have hlate : upTo height (newer.flatten ++ j.blocks) = [] := by
    obtain ⟨b, hb, rfl⟩ := hin
    refine List.filter_eq_nil_iff.mpr fun b' hb' => ?_
    have hlt := (List.pairwise_append.mp (List.pairwise_append.mp h).2.1).2.2 b hb b' hb'
    simpa using hlt
  refine ⟨lastOf Write.key key (writesOf (upTo height older.flatten)), ?_⟩
  rw [writesAt, hall, upTo_append, upTo_append, hlate, List.append_nil, writesOf_append, lastOf_append]

theorem liveValue_writesAt_active (h : Rising (allBlocks j))
    (hin : ∃ b ∈ j.blocks, b.height = height) (key : Bytes32) :
    liveValue (writesAt j height) key =
      match lastTouching key (upTo height j.blocks) with
      | some b => liveValue b.writes key
      | none => liveValue (writesOf j.segments.flatten) key := by
  have hold : upTo height j.segments.flatten = j.segments.flatten := by
    obtain ⟨b, hb, rfl⟩ := hin
    refine List.filter_eq_self.mpr fun b' hb' => ?_
    have hlt := (List.pairwise_append.mp h).2.2 b' hb' b hb
    simpa using hlt.le
  have hlast := lastOf_writesOf key (upTo height j.blocks)
  unfold liveValue
  rw [writesAt, allBlocks, upTo_append, hold, writesOf_append, lastOf_append, hlast]
  cases htouching : lastTouching key (upTo height j.blocks) with
  | none => rfl
  | some b =>
    have hb := List.mem_of_getLast? htouching
    obtain ⟨x, hx, hkey⟩ : Touches key b := by simpa using (List.mem_filter.mp hb).2
    dsimp only [Option.bind_some]
    cases hwrite : lastOf Write.key key b.writes with
    | none => exact absurd hkey (lastOf_eq_none.mp hwrite x hx)
    | some y => rfl

theorem start_le (h : Rising (allBlocks j)) (hin : ∃ b ∈ j.blocks, b.height = height) :
    lastHeight 0 j.segments.flatten ≤ height := by
  unfold lastHeight
  cases hlast : j.segments.flatten.getLast? with
  | none => exact Nat.zero_le height
  | some b' =>
    obtain ⟨b, hb, rfl⟩ := hin
    exact ((List.pairwise_append.mp h).2.2 b' (List.mem_of_getLast? hlast) b hb).le

theorem lastTouching_eq_none {blocks : List Block} (h : ∀ b ∈ blocks, ¬ Touches key b) :
    lastTouching key blocks = none := by
  have hnil : (blocks.filter fun b => Touches key b) = [] :=
    List.filter_eq_nil_iff.mpr fun b hb => by simpa using h b hb
  rw [lastTouching, hnil]
  rfl

/-- **What can be read is what is picked.** -/
theorem picked_of_legible (h : Rising (allBlocks j)) (hin : ∃ b ∈ j.blocks, b.height = height)
    (htouch : ∃ b ∈ j.blocks, Touches key b) (hlegible : LegibleActive j key height) :
    match pick height (newestFirst key (lastHeight 0 j.segments.flatten) j.blocks) with
    | some o => liveValue (writesAt j height) key = o
    | none => liveValue (writesAt j height) key = none ∧ ∀ b ∈ j.segments.flatten, ¬ Touches key b := by
  have hrising : Rising j.blocks := (List.pairwise_append.mp h).2.1
  have hlive := liveValue_writesAt_active h hin key
  unfold LegibleActive at hlegible
  rw [pick_active hrising (start_le h hin)]
  split at hlegible
  case isTrue herased =>
    rw [if_pos herased]
    exact hlegible
  case isFalse herased =>
    obtain ⟨hhead, hlast, hfirst⟩ := hlegible
    have hfilter : ((above height j.blocks).head?.filter fun b => Touches key b) = none := by
      rw [Option.filter_eq_none_iff]
      exact fun b hb => by simpa using hhead b hb
    rw [if_neg herased, hfilter]
    dsimp only
    cases htouching : lastTouching key (upTo height j.blocks) with
    | some b =>
      rw [htouching] at hlive
      exact hlive.trans (hlast b htouching).symm
    | none =>
      rw [htouching] at hlive
      have hfirst := hfirst htouching
      -- the key is written in a later block only
      have habove : ∃ b ∈ above height j.blocks, Touches key b := by
        obtain ⟨b, hb, hbt⟩ := htouch
        rw [hrising.cut height] at hb
        rcases List.mem_append.mp hb with hb | hb
        · have hin : b ∈ (upTo height j.blocks).filter fun b => Touches key b :=
            List.mem_filter.mpr ⟨hb, by simpa using hbt⟩
          rw [List.getLast?_eq_none_iff.mp htouching] at hin
          cases hin
        · exact ⟨b, hb, hbt⟩
      rw [if_pos habove] at hfirst
      refine ⟨hlive.trans ?_, hfirst⟩
      rw [liveValue, lastOf_writesOf, lastTouching_eq_none hfirst]
      rfl

theorem liveValue_of_untouched (h : Rising (allBlocks j)) (hin : ∃ b ∈ j.blocks, b.height = height)
    (hnone : ∀ b ∈ j.blocks, ¬ Touches key b) (hlegible : LegibleActive j key height) :
    liveValue (writesAt j height) key = none := by
  have hlive := liveValue_writesAt_active h hin key
  have hlow : lastTouching key (upTo height j.blocks) = none :=
    lastTouching_eq_none fun b hb => hnone b (mem_upTo.mp hb).1
  have habove : ¬ ∃ b ∈ above height j.blocks, Touches key b := by
    rintro ⟨b, hb, htouch⟩
    exact hnone b (mem_above.mp hb).1 htouch
  unfold LegibleActive at hlegible
  rw [if_neg fun ⟨b, hb, herased⟩ => habove ⟨b, hb, herased.1⟩] at hlegible
  have hfirst := hlegible.2.2 hlow
  rw [if_neg habove] at hfirst
  rw [hlow] at hlive
  exact hlive.trans hfirst

/-! ## Reads -/

/-- **A sealed height.** -/
theorem getAt_sealed (h : Ordered w) (htracks : Tracks w segs rs pend) {blocks : List Block}
    (hblocks : blocks ∈ w.journal.segments) (hin : ∃ b ∈ blocks, b.height = height)
    (hlegible : LegibleSealed w.journal key height blocks) (fuel : ℕ) :
    w.db.getAt fuel key height = some (answer (writesAt w.journal height) key) := by
  obtain ⟨hbelow, hsealed⟩ := h.getAtSealed_inside htracks hblocks hin key
  have hget : w.db.getAt fuel key height = some (w.db.getAtSealed key height) := by
    unfold DonaDbX.getAt
    cases w.db.dbe.index[key]? with
    | none => rfl
    | some e => exact if_neg fun hactive => absurd hactive.1 (by omega)
  rw [hget, hsealed, answer]
  congr 2
  unfold LegibleSealed at hlegible
  dsimp only at hlegible
  split at hlegible
  case isTrue hfront =>
    obtain ⟨x, hx, hkey⟩ := hfront
    obtain ⟨o, ho⟩ := lastOf_writesAt_sealed h.rising hblocks hin key
    have hsame : lastOf Write.key key ((writesOf blocks).takeWhile fun x => x.value.isSome) =
        lastOf Write.key key (writesOf (upTo height blocks)) := congrArg List.getLast? hlegible
    unfold liveValue
    rw [ho, ← hsame]
    cases hlast : lastOf Write.key key ((writesOf blocks).takeWhile fun x => x.value.isSome) with
    | none => exact absurd hkey (lastOf_eq_none.mp hlast x hx)
    | some y => rfl
  case isFalse hfront =>
    push Not at hfront
    rw [hlegible, liveValue, lastOf_eq_none.mpr hfront]
    rfl

section
variable (h : Chained w segs parts pend base)
include h

theorem touched_iff (key : Bytes32) :
    (∃ r ∈ parts.flatten, r.key = key) ↔ ∃ b ∈ w.journal.blocks, Touches key b := by
  have hwrites := h.tracks.blocks
  constructor
  · rintro ⟨r, hr, hkey⟩
    have hin : toWrite r ∈ writesOf w.journal.blocks := by
      rw [← hwrites]
      exact List.mem_map_of_mem hr
    obtain ⟨b, hb, hx⟩ := List.mem_flatMap.mp hin
    exact ⟨b, hb, toWrite r, hx, hkey⟩
  · rintro ⟨b, hb, x, hx, hkey⟩
    have hin : x ∈ parts.flatten.map toWrite := by
      rw [hwrites]
      exact List.mem_flatMap.mpr ⟨b, hb, hx⟩
    obtain ⟨r, hr, rfl⟩ := List.mem_map.mp hin
    exact ⟨r, hr, hkey⟩

theorem versions_active (horder : Ordered w) (key : Bytes32) :
    parts.reverse.filterMap (version key) =
      newestFirst key (lastHeight 0 w.journal.segments.flatten) w.journal.blocks := by
  have hstart : lastHeight 0 w.journal.segments.flatten < 2 ^ 64 := by
    unfold lastHeight
    cases hlast : w.journal.segments.flatten.getLast? with
    | none => exact (by decide : 0 < 2 ^ 64)
    | some b => exact horder.small b (List.mem_append_left _ (List.mem_of_getLast? hlast))
  have hversions := versions_eq h.stamped hstart
    (fun b hb => horder.small b (List.mem_append_right _ hb)) key
  have hmap : ∀ {α : Type} (f : α → Option (ℕ × Option Bytes)) (l : List α),
      l.reverse.filterMap f = (l.map f).reverse.filterMap id := by
    intro α f l
    rw [← List.map_reverse, List.filterMap_map]
    rfl
  rw [newestFirst, hmap, hversions, ← hmap]

/-- **A height of the active segment whose key is written there**: the walk comes to the version
picked. -/
theorem walk_active (horder : Ordered w) (height : ℕ) {e : Entry} (he : w.db.dbe.index[key]? = some e)
    (hgen : e.logId = w.db.gen) (hfuel : parts.length < fuel) :
    Walks (base key)
      (pick height (newestFirst key (lastHeight 0 w.journal.segments.flatten) w.journal.blocks))
      (chainWalk w.db.dbe.active height fuel e.offset) := by
  have hlinked := h.linked key
  rw [oldOffset, he] at hlinked
  rw [← versions_active h horder]
  refine chainWalk_versions hlinked ?_ ?_ (by rwa [List.length_reverse])
  · obtain ⟨b, hb, htouch⟩ := (touched_iff h key).mp ((h.gen key e he).2.mp hgen)
    obtain ⟨p, hp, -⟩ := exists_newestFirst (lastHeight 0 w.journal.segments.flatten) hb htouch
    rw [versions_active h horder]
    exact List.ne_nil_of_mem hp
  · intro r hr
    have hin : r ∈ parts.flatten := by
      simpa only [List.mem_flatten, List.mem_reverse] using hr
    obtain ⟨hdecode, hpos, hle⟩ := h.tracks.holds.done.decode hin
    have hroom := h.tracks.holds.room
    have hpend := h.tracks.holds.pend.le
    exact ⟨hdecode, hpos, by omega⟩

theorem liveValue_unknown (hnone : w.db.dbe.index[key]? = none) (height : ℕ) :
    liveValue (writesAt w.journal height) key = none := by
  have hall := (h.known key).mp hnone
  rw [liveValue, lastOf_eq_none.mpr]
  · rfl
  intro x hx
  have hin : x ∈ w.journal.committed := by
    obtain ⟨b, hb, hxb⟩ := List.mem_flatMap.mp hx
    exact List.mem_flatMap.mpr ⟨b, (mem_upTo.mp hb).1, hxb⟩
  rw [h.tracks.committed] at hin
  obtain ⟨r, hr, rfl⟩ := List.mem_map.mp hin
  exact hall r hr

theorem base_eq_zero (hnone : ∀ b ∈ w.journal.segments.flatten, ¬ Touches key b) : base key = 0 := by
  refine h.based key fun r hr hkey => ?_
  have hin : toWrite r ∈ (segs.map (List.map toWrite)).flatten := by
    rw [← List.map_flatten]
    exact List.mem_map_of_mem hr
  rw [h.tracks.segments] at hin
  obtain ⟨l, hl, hrl⟩ := List.mem_flatten.mp hin
  obtain ⟨blocks, hblocks, rfl⟩ := List.mem_map.mp hl
  obtain ⟨b, hb, hx⟩ := List.mem_flatMap.mp hrl
  exact hnone b (List.mem_flatten.mpr ⟨blocks, hblocks, hb⟩) ⟨toWrite r, hx, hkey⟩

/-- **A height of the active segment.** -/
theorem getAt_active (horder : Ordered w) (hin : ∃ b ∈ w.journal.blocks, b.height = height)
    (hlegible : LegibleActive w.journal key height) (hfuel : parts.length < fuel) :
    w.db.getAt fuel key height = some (answer (writesAt w.journal height) key) := by
  have hmin : w.db.activeMin ≤ height := by
    obtain ⟨b, hb, rfl⟩ := hin
    exact horder.active b hb
  have hsealed := horder.getAtSealed_active hmin key
  unfold DonaDbX.getAt answer
  rw [hsealed]
  cases he : w.db.dbe.index[key]? with
  | none =>
    rw [liveValue_unknown h he]
    rfl
  | some e =>
    dsimp only
    by_cases hgen : e.logId = w.db.gen
    · rw [if_pos ⟨hmin, hgen⟩]
      have htouch := (touched_iff h key).mp ((h.gen key e he).2.mp hgen)
      have hpicked := picked_of_legible horder.rising hin htouch hlegible
      have hwalk := walk_active h horder height he hgen hfuel
      unfold Walks at hwalk
      cases hpick : pick height (newestFirst key (lastHeight 0 w.journal.segments.flatten) w.journal.blocks) with
      | none =>
        rw [hpick] at hpicked hwalk
        obtain ⟨hnone, huntouched⟩ := hpicked
        rw [hnone, hwalk (base_eq_zero h huntouched)]
        rfl
      | some o =>
        rw [hpick] at hpicked hwalk
        dsimp only at hpicked
        rw [hpicked]
        cases o with
        | none =>
          rw [hwalk]
          rfl
        | some v =>
          rw [hwalk]
          rfl
    · rw [if_neg fun hactive => hgen hactive.2, liveValue_of_untouched horder.rising hin _ hlegible]
      · rfl
      · intro b hb htouch
        exact hgen ((h.gen key e he).2.mpr ((touched_iff h key).mpr ⟨b, hb, htouch⟩))

end

/-- **Reads as of a height**: in a history that writes to shard 0 only and commits at rising heights,
`get_at` of a committed height ends with the last value at or below it wherever that can be read. -/
theorem getAt_of_legible (blake3 : Bytes → Bytes32) (cfg : Config) (n : ℕ) (ops : List Op)
    (h : Along (step blake3) Climbs (start blake3 cfg n) ops) (key : Bytes32) (height : ℕ)
    (hheight : ∃ b ∈ allBlocks (run (step blake3) (start blake3 cfg n) ops).journal, b.height = height)
    (hlegible : Legible (run (step blake3) (start blake3 cfg n) ops).journal key height) :
    ∃ enough, ∀ fuel, enough ≤ fuel →
      (run (step blake3) (start blake3 cfg n) ops).db.getAt fuel key height =
        some (answer (writesAt (run (step blake3) (start blake3 cfg n) ops).journal height) key) := by
  obtain ⟨⟨segs, parts, pend, base, hchained⟩, horder⟩ := h.invariant
    (I := fun w => (∃ segs parts pend base, Chained w segs parts pend base) ∧ Ordered w)
    (fun w op hw hop => by
      obtain ⟨⟨segs, parts, pend, base, hw⟩, horder⟩ := hw
      exact ⟨hw.step blake3 hop.1, horder.step blake3 hw.tracks hop⟩)
    ⟨⟨_, _, _, _, chained_start blake3 cfg n⟩, ordered_start blake3 cfg n⟩
  refine ⟨parts.length + 1, fun fuel hfuel => ?_⟩
  obtain ⟨b, hb, rfl⟩ := hheight
  rcases List.mem_append.mp hb with hb | hb
  · obtain ⟨blocks, hblocks, hin⟩ := List.mem_flatten.mp hb
    exact getAt_sealed horder hchained.tracks hblocks ⟨b, hin, rfl⟩ (hlegible.2 blocks hblocks ⟨b, hin, rfl⟩) fuel
  · exact getAt_active hchained horder ⟨b, hb, rfl⟩ (hlegible.1 ⟨b, hb, rfl⟩) hfuel

/-- Two keys in a sealed segment, and one of them written again in the active one. -/
def sealedAndRewritten : List Op :=
  [.put 1 [7], .put 2 [8], .commit 1 foldFirst, .put 1 [9], .commit 2 foldFirst, .commit 3 foldFirst]

example : (run (step sampleHash) (start sampleHash rotatingConfig 0)
      sealedAndRewritten).db.segments.length = 1 := by
  decide +kernel

theorem getAt_sealed_and_rewritten :
    (∃ enough, ∀ fuel, enough ≤ fuel →
      (run (step sampleHash) (start sampleHash rotatingConfig 0) sealedAndRewritten).db.getAt fuel 1 1 =
        some (.ok [7])) ∧
    ∃ enough, ∀ fuel, enough ≤ fuel →
      (run (step sampleHash) (start sampleHash rotatingConfig 0) sealedAndRewritten).db.getAt fuel 1 2 =
        some (.ok [9]) := by
  have hshort : ∀ b : UInt8, [b].length < 2 ^ 32 := by simp
  have hclimbs : Along (step sampleHash) Climbs (start sampleHash rotatingConfig 0) sealedAndRewritten :=
    ⟨⟨hshort 7, trivial⟩, ⟨hshort 8, trivial⟩, ⟨trivial, by decide, by decide +kernel⟩, ⟨hshort 9, trivial⟩,
      ⟨trivial, by decide, by decide +kernel⟩, ⟨trivial, by decide, by decide +kernel⟩, trivial⟩
  have hone : answer (writesAt (run (step sampleHash) (start sampleHash rotatingConfig 0)
      sealedAndRewritten).journal 1) 1 = .ok [7] := by decide +kernel
  have htwo : answer (writesAt (run (step sampleHash) (start sampleHash rotatingConfig 0)
      sealedAndRewritten).journal 2) 1 = .ok [9] := by decide +kernel
  rw [← hone, ← htwo]
  constructor
  · refine getAt_of_legible sampleHash rotatingConfig 0 sealedAndRewritten hclimbs 1 1 (by decide +kernel) ?_
    unfold Legible LegibleActive LegibleSealed
    decide +kernel
  · refine getAt_of_legible sampleHash rotatingConfig 0 sealedAndRewritten hclimbs 1 2 (by decide +kernel) ?_
    unfold Legible LegibleActive LegibleSealed
    decide +kernel

def writtenTwice : List Op := [.put 1 [7], .commit 1 foldFirst, .put 1 [8], .commit 2 foldFirst]

/-- The value of the next block is read. -/
theorem next_block_read : ¬ ∀ (blake3 : Bytes → Bytes32) (cfg : Config) (n : ℕ) (ops : List Op),
    (∀ op ∈ ops, Basic op) → Along (step blake3) Climbs (start blake3 cfg n) ops →
      ∀ (key : Bytes32) (height : ℕ),
        (∃ b ∈ allBlocks (run (step blake3) (start blake3 cfg n) ops).journal, b.height = height) →
          ∃ enough, ∀ fuel, enough ≤ fuel →
            (run (step blake3) (start blake3 cfg n) ops).db.getAt fuel key height =
              some (answer (writesAt (run (step blake3) (start blake3 cfg n) ops).journal height) key) := by
  intro h
  have hshort : ∀ b : UInt8, [b].length < 2 ^ 32 := by simp
  have hclimbs : Along (step sampleHash) Climbs (start sampleHash smallConfig 0) writtenTwice :=
    ⟨⟨hshort 7, trivial⟩, ⟨trivial, by decide, by decide +kernel⟩, ⟨hshort 8, trivial⟩,
      ⟨trivial, by decide, by decide +kernel⟩, trivial⟩
  obtain ⟨enough, hread⟩ := h sampleHash smallConfig 0 writtenTwice
    (by simp [writtenTwice, Basic]) hclimbs 1 1 (by decide +kernel)
  have hread := hread (enough + 1) (Nat.le_succ _)
  have hindex : (run (step sampleHash) (start sampleHash smallConfig 0)
      writtenTwice).db.dbe.index[(1 : Bytes32)]? =
      some ⟨1, 65, 2, 0, false, sampleHash [8]⟩ := by decide +kernel
  have hdecode : decode (run (step sampleHash) (start sampleHash smallConfig 0)
      writtenTwice).db.dbe.active.mmap 65 =
      some ⟨65, false, 8, 1, 1, [8]⟩ := by decide +kernel
  rw [DonaDbX.getAt, hindex] at hread
  dsimp only at hread
  rw [if_pos (by decide +kernel), chainWalk, hdecode] at hread
  dsimp only at hread
  rw [if_neg (by decide +kernel), if_pos le_rfl, if_pos (by decide +kernel)] at hread
  revert hread
  decide +kernel

end TruthLinked.DonaDb.AtHeight
