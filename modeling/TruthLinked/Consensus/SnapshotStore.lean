import TruthLinked.Core.Bytes
import TruthLinked.Lib.Except
import TruthLinked.Lib.Prefix
import TruthLinked.Lib.Table
import TruthLinked.Lib.Text
import Mathlib.Data.Nat.Find

/-! # Stored snapshots

`save_snapshot`, `prune_old_snapshots` and `load_latest_snapshot_before`, on the store as a sorted map. The
keys of snapshots are `snapshot:` and the height in decimal, so they are scanned in the order of these texts
and not of the heights; the scan starts below the key of the height asked for; and the height saved last need
not be the greatest, nor still be stored. `latest_before_iff` says for every store and height when the answer
is nevertheless right. -/

namespace TruthLinked.Consensus.SnapshotStore

open Core.Types Core.Bytes Lib.Except Lib.Table Lib.Text Lib.Prefix

/-- A store: `DonaDbX` with its `StringIndex`. -/
abbrev Store := Map Bytes Bytes

/-- A snapshot has a height, an encoding that is read back, and a checkpoint when its signatures suffice. -/
structure SnapshotCodec (S : Type) where
  height : S → ℕ
  height_lt : ∀ s, height s < 2 ^ 64
  encode : S → Bytes
  decode : Bytes → Except String S
  decode_encode : ∀ s, decode (encode s) = .ok s
  checkpoint : S → Option Bytes

/-! ### The code -/

/-- `MAX_SNAPSHOTS_KEPT`. -/
def maxSnapshotsKept : ℕ := 10

/-- `RAW_BLOCK_RETENTION`. -/
def rawBlockRetention : ℕ := 256

/-- `snapshot:`. -/
def snapshotPrefix : Bytes := "snapshot:".toUTF8.toList

/-- `latest_snapshot_height`. -/
def latestKey : Bytes := "latest_snapshot_height".toUTF8.toList

/-- A number in decimal. -/
def decimal (n : ℕ) : Bytes := (Nat.toDigits 10 n).map fun c => UInt8.ofNat c.toNat

/-- `format!("snapshot:{}", height)`. -/
def snapshotKey (height : ℕ) : Bytes := snapshotPrefix ++ decimal height

/-- `str::parse::<u64>` of an ASCII text. -/
def parseU64 (bs : Bytes) : Option ℕ :=
  let t := bs.map fun b => Char.ofNat b.toNat
  let digits := if t.head? = some '+' then t.tail else t
  if digits = [] ∨ digits.all Char.isDigit = false ∨ 2 ^ 64 ≤ value digits then none else some (value digits)

/-- `StorageBackend::scan_prefix`. -/
def scanPrefix (start : Bytes) (m : Store) : List (Bytes × Bytes) := m.toList.filter fun e => start <+: e.1

/-- `StorageBackend::scan_from_reverse`: the keys below `start`, the greatest first, at most 1000 of them. -/
def scanFromReverse (start : Bytes) (m : Store) : List (Bytes × Bytes) :=
  ((m.toList.filter fun e => compare e.1 start = .lt).reverse).take 1000

/-- The heights that `prune_old_snapshots` reads off the keys. -/
def snapshotHeights (m : Store) : List ℕ :=
  (scanPrefix snapshotPrefix m).filterMap fun e => parseU64 (e.1.drop snapshotPrefix.length)

/-- The deletes of a batch. -/
def eraseAll (keys : List Bytes) (m : Store) : Store := keys.foldl (fun m k => m.erase k) m

/-- `prune_old_snapshots`. -/
def pruneOldSnapshots (m : Store) : Store :=
  let heights := snapshotHeights m
  if heights.length ≤ maxSnapshotsKept then m
  else eraseAll (((heights.mergeSort).take (heights.length - maxSnapshotsKept)).map snapshotKey) m

/-- The prefixes of raw block data. -/
def blockPrefixes : List Bytes :=
  ["batch:".toUTF8.toList, "tx_by_height:".toUTF8.toList, "batch_tx_count:".toUTF8.toList,
    "results:".toUTF8.toList]

/-- The keys that `prune_blocks` deletes: those below `keepFrom`, by the number up to the next colon. -/
def prunedKeys (keepFrom : ℕ) (m : Store) : List Bytes :=
  blockPrefixes.flatMap fun start => ((scanPrefix start m).map Prod.fst).filter fun k =>
    (ByteArray.mk k.toArray).validateUTF8 ∧
      (parseU64 ((k.drop start.length).takeWhile (· ≠ 58))).getD (2 ^ 64 - 1) < keepFrom

/-- `prune_blocks`. -/
def pruneBlocks (keepFrom : ℕ) (m : Store) : Store :=
  if keepFrom = 0 then m else eraseAll (prunedKeys keepFrom m) m

section Code
variable {S : Type} (codec : SnapshotCodec S)

/-- `save_snapshot`. -/
def saveSnapshot (fullNode : Bool) (s : S) (m : Store) : Store :=
  let m := m.insert (snapshotKey (codec.height s)) (codec.encode s)
  let m := m.insert latestKey (leBytes 8 (codec.height s))
  let m := match codec.checkpoint s with
    | some data => m.insert "checkpoint:latest".toUTF8.toList data
    | none => m
  let m := pruneOldSnapshots m
  if fullNode then m else pruneBlocks (codec.height s - rawBlockRetention) m

/-- `load_snapshot`. -/
def loadSnapshot (height : ℕ) (m : Store) : Except String (Option S) :=
  match m[snapshotKey height]? with
  | some data => do
    let s ← codec.decode data
    pure (some s)
  | none => pure none

/-- The loop of `load_latest_snapshot_before`. -/
def firstAtMost (height : ℕ) : List (Bytes × Bytes) → Except String (Option S)
  | [] => pure none
  | e :: rest =>
    if snapshotPrefix <+: e.1 then do
      let s ← codec.decode e.2
      if codec.height s ≤ height then pure (some s) else firstAtMost height rest
    else pure none

/-- `load_latest_snapshot_before`. -/
def loadLatestSnapshotBefore (height : ℕ) (m : Store) : Except String (Option S) :=
  match m[latestKey]? with
  | some data =>
    if data.length ≠ 8 then throw "could not convert slice to array"
    else if leNat data ≤ height then loadSnapshot codec (leNat data) m
    else firstAtMost codec height (scanFromReverse (snapshotKey height) m)
  | none => firstAtMost codec height (scanFromReverse (snapshotKey height) m)

/-! ### The stores -/

/-- A key of other data. -/
def Foreign (k : Bytes) : Prop := ¬ snapshotPrefix <+: k ∧ k ≠ latestKey

/-- The stores that `save_snapshot` leads to, with any other data written and deleted in between. -/
inductive Stored : Store → Prop
  | empty : Stored ∅
  | save {m : Store} (fullNode : Bool) (s : S) : Stored m → Stored (saveSnapshot codec fullNode s m)
  | put {m : Store} {k : Bytes} (v : Bytes) : Stored m → Foreign k → Stored (m.insert k v)
  | delete {m : Store} {k : Bytes} : Stored m → Foreign k → Stored (m.erase k)

/-- A snapshot of this height is stored. -/
def HasSnapshot (m : Store) (height : ℕ) : Prop := snapshotKey height ∈ m

/-- The answer is the stored snapshot with the greatest height that is at most `height`, if there is one. -/
def IsLatestAtMost (height : ℕ) (m : Store) : Option S → Prop
  | some s => m[snapshotKey (codec.height s)]? = some (codec.encode s) ∧ codec.height s ≤ height ∧
    ∀ g ≤ height, HasSnapshot m g → g ≤ codec.height s
  | none => ∀ g ≤ height, ¬ HasSnapshot m g

/-- `load_latest_snapshot_before` answers, and rightly. -/
def AnswersRightly (height : ℕ) (m : Store) : Prop :=
  ∃ answer, loadLatestSnapshotBefore codec height m = .ok answer ∧ IsLatestAtMost codec height m answer

end Code

/-! ### The condition -/

/-- The height saved last. -/
def latestHeight (m : Store) : Option ℕ := m[latestKey]?.map leNat

/-- The decimal text of one height comes before that of another. -/
def TextBefore (g h : ℕ) : Prop := compare (decimal g) (decimal h) = .lt

/-- Nothing is stored at or below the height, or the height saved last is stored and is the greatest. -/
def LatestIsGreatest (latest height : ℕ) (m : Store) : Prop :=
  ∀ g ≤ height, HasSnapshot m g → HasSnapshot m latest ∧ g ≤ latest

/-- The greatest stored height at or below the height comes before it as a text, and no other one stands
between. -/
def GreatestIsNextText (height : ℕ) (m : Store) : Prop :=
  ∀ g ≤ height, HasSnapshot m g → (∀ g' ≤ height, HasSnapshot m g' → g' ≤ g) →
    TextBefore g height ∧ ∀ g' ≤ height, HasSnapshot m g' → TextBefore g' height → ¬ TextBefore g g'

/-- When the answer is right. -/
def Answerable (height : ℕ) (m : Store) : Prop :=
  match latestHeight m with
  | some latest => if latest ≤ height then LatestIsGreatest latest height m else GreatestIsNextText height m
  | none => GreatestIsNextText height m

/-! ### Keys -/

section Keys
variable {g h n : ℕ}

theorem chars_decimal (n : ℕ) : (decimal n).map (fun b => Char.ofNat b.toNat) = Nat.toDigits 10 n := by
  unfold decimal
  rw [List.map_map, List.map_congr_left (g := id), List.map_id]
  intro c hc
  have hdigit := digits_toDigits n c hc
  simp only [Char.isDigit, Bool.and_eq_true, decide_eq_true_eq, UInt32.le_iff_toNat_le] at hdigit
  have hle : c.toNat ≤ 57 := hdigit.2
  simp only [Function.comp_apply, UInt8.toNat_ofNat', id_eq]
  rw [Nat.mod_eq_of_lt (by omega), Char.ofNat_toNat]

theorem decimal_inj (h : decimal g = decimal n) : g = n := by
  have hchars := congrArg (List.map fun b : UInt8 => Char.ofNat b.toNat) h
  rw [chars_decimal, chars_decimal] at hchars
  have hvalue := congrArg value hchars
  rwa [value, value, Nat.ofDigitChars_ten_toDigits, Nat.ofDigitChars_ten_toDigits] at hvalue

theorem snapshotKey_inj : snapshotKey g = snapshotKey n ↔ g = n := by
  constructor
  · intro h
    exact decimal_inj (List.append_cancel_left h)
  · exact congrArg snapshotKey

theorem prefix_snapshotKey (n : ℕ) : snapshotPrefix <+: snapshotKey n := List.prefix_append _ _

theorem parseU64_decimal (h : n < 2 ^ 64) : parseU64 (decimal n) = some n := by
  unfold parseU64
  dsimp only
  rw [chars_decimal]
  have hsign : ¬ (Nat.toDigits 10 n).head? = some '+' := by
    intro hplus
    exact absurd (digits_toDigits n '+' (List.mem_of_mem_head? hplus)) (by decide)
  have hvalue : value (Nat.toDigits 10 n) = n := Nat.ofDigitChars_ten_toDigits
  rw [if_neg hsign, hvalue, if_neg]
  rintro (hnil | hdigits | hlarge)
  · exact Nat.toDigits_ne_nil hnil
  · rw [← Bool.not_eq_true, List.all_eq_true] at hdigits
    exact hdigits (digits_toDigits n)
  · omega

theorem parse_snapshotKey (h : n < 2 ^ 64) : parseU64 ((snapshotKey n).drop snapshotPrefix.length) = some n := by
  rw [snapshotKey, List.drop_left, parseU64_decimal h]

/-- No snapshot starts at the other fixed keys, and no block entry is one of them. -/
theorem keys_apart :
    (¬ snapshotPrefix <+: latestKey ∧ ¬ snapshotPrefix <+: "checkpoint:latest".toUTF8.toList ∧
      "checkpoint:latest".toUTF8.toList ≠ latestKey) ∧
    blockPrefixes.all (fun start => !decide (snapshotPrefix <+: start) && !decide (start <+: snapshotPrefix) &&
      !decide (start <+: latestKey)) = true := by decide +kernel

theorem latestKey_foreign (n : ℕ) : latestKey ≠ snapshotKey n := by
  intro h
  have hstarts : snapshotPrefix <+: latestKey := h ▸ prefix_snapshotKey n
  exact keys_apart.1.1 hstarts

end Keys

/-! ### What holds of every store -/

section Invariant
variable {S : Type} {codec : SnapshotCodec S} {m : Store}

/-- Under the keys of snapshots stand snapshots of their heights. -/
def Entries (codec : SnapshotCodec S) (m : Store) : Prop :=
  ∀ k v, m[k]? = some v → snapshotPrefix <+: k → ∃ s, k = snapshotKey (codec.height s) ∧ v = codec.encode s

/-- Besides, nothing is stored before a height was saved, and no more than ten snapshots are stored. -/
structure Sound (codec : SnapshotCodec S) (m : Store) : Prop where
  entries : Entries codec m
  latest : (m[latestKey]? = none ∧ ∀ g, ¬ HasSnapshot m g) ∨ ∃ l < 2 ^ 64, m[latestKey]? = some (leBytes 8 l)
  few : ∀ l : List ℕ, l.Nodup → (∀ g ∈ l, HasSnapshot m g) → l.length ≤ maxSnapshotsKept

theorem hasSnapshot_iff {m m' : Store} {g : ℕ} (h : m'[snapshotKey g]? = m[snapshotKey g]?) :
    HasSnapshot m' g ↔ HasSnapshot m g := by
  unfold HasSnapshot
  rw [Std.ExtTreeMap.mem_iff_isSome_getElem?, Std.ExtTreeMap.mem_iff_isSome_getElem?, h]

theorem hasSnapshot_of_some {g : ℕ} {v : Bytes} (h : m[snapshotKey g]? = some v) : HasSnapshot m g := by
  unfold HasSnapshot
  rw [Std.ExtTreeMap.mem_iff_isSome_getElem?, h]
  rfl

theorem Sound.congr {m' : Store} (h : Sound codec m)
    (hsame : ∀ k, snapshotPrefix <+: k ∨ k = latestKey → m'[k]? = m[k]?) :
    Sound codec m' := by
  have hhas : ∀ g, HasSnapshot m' g ↔ HasSnapshot m g := fun g =>
    hasSnapshot_iff (hsame _ (Or.inl (prefix_snapshotKey g)))
  refine ⟨fun k v hk hstarts => ?_, ?_, fun l hnodup hl => ?_⟩
  · rw [hsame k (Or.inl hstarts)] at hk
    exact h.entries k v hk hstarts
  · rw [hsame latestKey (Or.inr rfl)]
    simp only [hhas]
    exact h.latest
  · exact h.few l hnodup fun g hg => (hhas g).mp (hl g hg)

theorem getElem?_eraseAll (keys : List Bytes) (m : Store) (k : Bytes) :
    (eraseAll keys m)[k]? = if k ∈ keys then none else m[k]? := by
  unfold eraseAll
  induction keys generalizing m with
  | nil => rfl
  | cons key keys ih =>
    rw [List.foldl_cons, ih, getElem?_erase_ite]
    by_cases hk : k ∈ keys
    · rw [if_pos hk, if_pos (List.mem_cons_of_mem _ hk)]
    · rw [if_neg hk]
      exact if_congr (by simp [hk]) rfl rfl

theorem hasSnapshot_eraseAll {heights : List ℕ} {g : ℕ} :
    HasSnapshot (eraseAll (heights.map snapshotKey) m) g ↔ HasSnapshot m g ∧ g ∉ heights := by
  have hmem : snapshotKey g ∈ heights.map snapshotKey ↔ g ∈ heights := by
    simp only [List.mem_map, snapshotKey_inj, exists_eq_right]
  unfold HasSnapshot
  rw [Std.ExtTreeMap.mem_iff_isSome_getElem?, Std.ExtTreeMap.mem_iff_isSome_getElem?, getElem?_eraseAll]
  by_cases hg : g ∈ heights
  · rw [if_pos (hmem.mpr hg)]
    simp [hg]
  · rw [if_neg fun h => hg (hmem.mp h)]
    simp [hg]

/-- The heights that are read off the keys are those of the stored snapshots, each once. -/
theorem snapshotHeights_spec (h : Entries codec m) :
    (snapshotHeights m).Nodup ∧ ∀ g, g ∈ snapshotHeights m ↔ HasSnapshot m g := by
  have hread : ∀ e ∈ scanPrefix snapshotPrefix m, ∀ g, parseU64 (e.1.drop snapshotPrefix.length) = some g →
      e.1 = snapshotKey g := by
    intro e he g hg
    obtain ⟨hmem, hstarts⟩ := List.mem_filter.mp he
    obtain ⟨s, hk, -⟩ :=
      h e.1 e.2 (Std.ExtTreeMap.mem_toList_iff_getElem?_eq_some.mp hmem) (by simpa using hstarts)
    rw [hk, parse_snapshotKey (codec.height_lt s), Option.some.injEq] at hg
    rw [hk, hg]
  constructor
  · have hdistinct : (scanPrefix snapshotPrefix m).Pairwise fun a b => ¬ compare a.1 b.1 = .eq :=
      Std.ExtTreeMap.distinct_keys_toList.filter _
    refine List.pairwise_filterMap.mpr (hdistinct.imp_of_mem fun ha hb hne g hg g' hg' heq => hne ?_)
    rw [hread _ ha g hg, hread _ hb g' hg', heq]
    exact Std.ReflOrd.compare_self
  · intro g
    unfold snapshotHeights
    rw [List.mem_filterMap]
    constructor
    · rintro ⟨e, he, hg⟩
      have hk := hread e he g hg
      have hmem := Std.ExtTreeMap.mem_toList_iff_getElem?_eq_some.mp (List.mem_filter.mp he).1
      exact hasSnapshot_of_some (hk ▸ hmem)
    · intro hg
      obtain ⟨v, hv⟩ := Option.isSome_iff_exists.mp (Std.ExtTreeMap.mem_iff_isSome_getElem?.mp hg)
      obtain ⟨s, hk, -⟩ := h _ v hv (prefix_snapshotKey g)
      refine ⟨(snapshotKey g, v), List.mem_filter.mpr
        ⟨Std.ExtTreeMap.mem_toList_iff_getElem?_eq_some.mpr hv, ?_⟩, ?_⟩
      · exact decide_eq_true (prefix_snapshotKey g)
      · rw [snapshotKey_inj.mp hk]
        exact parse_snapshotKey (codec.height_lt s)

theorem Entries.erase (h : Entries codec m) (keys : List Bytes) : Entries codec (eraseAll keys m) := by
  intro k v hk hstarts
  rw [getElem?_eraseAll] at hk
  split_ifs at hk
  exact h k v hk hstarts

/-- **Pruning leaves ten snapshots at most.** -/
theorem few_prune (h : Entries codec m) {l : List ℕ} (hnodup : l.Nodup)
    (hl : ∀ g ∈ l, HasSnapshot (pruneOldSnapshots m) g) :
    l.length ≤ maxSnapshotsKept := by
  obtain ⟨hheights, hmem⟩ := snapshotHeights_spec h
  unfold pruneOldSnapshots at hl
  dsimp only at hl
  generalize snapshotHeights m = heights at hheights hmem hl
  split_ifs at hl with hfew
  · have hsub : l.Subperm heights := List.subperm_of_subset hnodup fun g hg => (hmem g).mpr (hl g hg)
    exact hsub.length_le.trans hfew
  · have hperm := List.mergeSort_perm heights (fun a b => decide (a ≤ b))
    generalize heights.mergeSort (fun a b => decide (a ≤ b)) = sorted at hl hperm
    simp only [hasSnapshot_eraseAll] at hl
    have hlength := hperm.length_eq
    -- the pruned heights and those of the list are different stored heights
    have hboth : (sorted.take (heights.length - maxSnapshotsKept) ++ l).Nodup := by
      refine List.nodup_append.mpr ⟨(hperm.nodup_iff.mpr hheights).sublist (List.take_sublist _ _), hnodup, ?_⟩
      rintro a ha b hb rfl
      exact (hl a hb).2 ha
    have hsub : (sorted.take (heights.length - maxSnapshotsKept) ++ l).Subperm heights := by
      refine List.subperm_of_subset hboth fun g hg => ?_
      rcases List.mem_append.mp hg with hg | hg
      · exact hperm.mem_iff.mp (List.mem_of_mem_take hg)
      · exact (hmem g).mpr (hl g hg).1
    have hle := hsub.length_le
    rw [List.length_append, List.length_take] at hle
    omega

theorem prunedKeys_foreign {keepFrom : ℕ} {k : Bytes} (hk : k ∈ prunedKeys keepFrom m) : Foreign k := by
  obtain ⟨start, hstart, hk⟩ := List.mem_flatMap.mp hk
  obtain ⟨e, he, rfl⟩ := List.mem_map.mp (List.mem_filter.mp hk).1
  have hstarts : start <+: e.1 := by simpa using (List.mem_filter.mp he).2
  have hothers := keys_apart.2
  have hother := List.all_eq_true.mp hothers start hstart
  simp only [Bool.and_eq_true, Bool.not_eq_true', decide_eq_false_iff_not] at hother
  refine ⟨fun hsnapshot => ?_, fun hlatest => hother.2 (hlatest ▸ hstarts)⟩
  rcases List.prefix_or_prefix_of_prefix hsnapshot hstarts with h | h
  · exact hother.1.1 h
  · exact hother.1.2 h

/-- The store before pruning: the snapshot and its height are written. -/
def written (codec : SnapshotCodec S) (s : S) (m : Store) : Store :=
  let m := (m.insert (snapshotKey (codec.height s)) (codec.encode s)).insert latestKey
    (leBytes 8 (codec.height s))
  match codec.checkpoint s with
  | some data => m.insert "checkpoint:latest".toUTF8.toList data
  | none => m

theorem getElem?_written (s : S) {k : Bytes} (hk : snapshotPrefix <+: k ∨ k = latestKey) :
    (written codec s m)[k]? = if k = latestKey then some (leBytes 8 (codec.height s))
      else if k = snapshotKey (codec.height s) then some (codec.encode s) else m[k]? := by
  have hcheckpoint : k ≠ "checkpoint:latest".toUTF8.toList := by
    rintro rfl
    exact hk.elim keys_apart.1.2.1 keys_apart.1.2.2
  unfold written
  dsimp only
  cases codec.checkpoint s with
  | none => rw [getElem?_insert_ite, getElem?_insert_ite]
  | some data => rw [getElem?_insert_ite, if_neg hcheckpoint, getElem?_insert_ite, getElem?_insert_ite]

theorem Entries.written (h : Entries codec m) (s : S) : Entries codec (written codec s m) := by
  intro k v hk hstarts
  have hlatest : k ≠ latestKey := by
    rintro rfl
    exact keys_apart.1.1 hstarts
  rw [getElem?_written s (Or.inl hstarts), if_neg hlatest] at hk
  split_ifs at hk with hkey
  · cases hk
    exact ⟨s, hkey, rfl⟩
  · exact h k v hk hstarts

/-- **One save** keeps the store sound. -/
theorem Sound.save (h : Sound codec m) (fullNode : Bool) (s : S) :
    Sound codec (saveSnapshot codec fullNode s m) := by
  have hentries := h.entries.written s
  have hlatest : (SnapshotStore.written codec s m)[latestKey]? = some (leBytes 8 (codec.height s)) := by
    rw [getElem?_written s (Or.inr rfl), if_pos rfl]
  have hpruned : Sound codec (pruneOldSnapshots (SnapshotStore.written codec s m)) := by
    refine ⟨?_, Or.inr ⟨codec.height s, codec.height_lt s, ?_⟩, fun l hnodup hl => few_prune hentries hnodup hl⟩
    · unfold pruneOldSnapshots
      dsimp only
      split_ifs
      · exact hentries
      · exact hentries.erase _
    · unfold pruneOldSnapshots
      dsimp only
      split_ifs
      · exact hlatest
      · rw [getElem?_eraseAll, if_neg, hlatest]
        intro hmem
        obtain ⟨g, -, hg⟩ := List.mem_map.mp hmem
        exact latestKey_foreign g hg.symm
  have hsave : saveSnapshot codec fullNode s m =
      if fullNode then pruneOldSnapshots (SnapshotStore.written codec s m)
      else pruneBlocks (codec.height s - rawBlockRetention)
        (pruneOldSnapshots (SnapshotStore.written codec s m)) := rfl
  rw [hsave]
  generalize pruneOldSnapshots (SnapshotStore.written codec s m) = pruned at hpruned
  unfold pruneBlocks
  split_ifs
  · exact hpruned
  · exact hpruned
  · refine hpruned.congr fun k hk => ?_
    rw [getElem?_eraseAll, if_neg]
    intro hmem
    have hforeign := prunedKeys_foreign hmem
    exact hk.elim hforeign.1 hforeign.2

/-- **Every store** is sound. -/
theorem sound_of_stored (h : Stored codec m) : Sound codec m := by
  induction h with
  | empty =>
    refine ⟨fun k v hk => ?_, Or.inl ⟨Std.ExtTreeMap.getElem?_empty, fun g =>
      Std.ExtTreeMap.not_mem_empty⟩, fun l _ hl => ?_⟩
    · rw [Std.ExtTreeMap.getElem?_empty] at hk
      cases hk
    · cases l with
      | nil => exact Nat.zero_le _
      | cons g l => exact absurd (hl g List.mem_cons_self) Std.ExtTreeMap.not_mem_empty
  | save fullNode s _ ih => exact ih.save fullNode s
  | @put m k v _ hk ih =>
    refine ih.congr fun k' hk' => ?_
    rw [getElem?_insert_ite, if_neg]
    rintro rfl
    exact hk'.elim hk.1 hk.2
  | @delete m k _ hk ih =>
    refine ih.congr fun k' hk' => ?_
    rw [getElem?_erase_ite, if_neg]
    rintro rfl
    exact hk'.elim hk.1 hk.2

end Invariant

/-! ### The scan -/

section Scan
variable {S : Type} {codec : SnapshotCodec S} {m : Store} {height : ℕ}

/-- What the scan returns: of the stored heights that are not greater and come before as texts, the last one
as a text. -/
def Scanned (codec : SnapshotCodec S) (height : ℕ) (m : Store) : Option S → Prop
  | some s => m[snapshotKey (codec.height s)]? = some (codec.encode s) ∧ codec.height s ≤ height ∧
    TextBefore (codec.height s) height ∧
    ∀ g ≤ height, HasSnapshot m g → TextBefore g height → ¬ TextBefore (codec.height s) g
  | none => ∀ g ≤ height, HasSnapshot m g → ¬ TextBefore g height

theorem firstAtMost_spec {l : List (Bytes × Bytes)} (hfall : l.Pairwise fun a b => compare b.1 a.1 = .lt)
    (hfirst : ∀ a ∈ l, ∀ b ∈ l, ¬ snapshotPrefix <+: a.1 → snapshotPrefix <+: b.1 → compare a.1 b.1 = .lt)
    (hentries : ∀ e ∈ l, snapshotPrefix <+: e.1 → ∃ s, e = (snapshotKey (codec.height s), codec.encode s)) :
    ∃ answer, firstAtMost codec height l = .ok answer ∧
      match answer with
      | some s => (snapshotKey (codec.height s), codec.encode s) ∈ l ∧ codec.height s ≤ height ∧
        ∀ g ≤ height, ∀ v, (snapshotKey g, v) ∈ l → ¬ compare (snapshotKey (codec.height s)) (snapshotKey g) = .lt
      | none => ∀ g ≤ height, ∀ v, (snapshotKey g, v) ∉ l := by
  induction l with
  | nil => exact ⟨none, rfl, fun g _ v h => absurd h List.not_mem_nil⟩
  | cons e rest ih =>
    obtain ⟨hhead, hrest⟩ := List.pairwise_cons.mp hfall
    unfold firstAtMost
    by_cases hstarts : snapshotPrefix <+: e.1
    · rw [if_pos hstarts]
      obtain ⟨s, rfl⟩ := hentries e List.mem_cons_self hstarts
      rw [codec.decode_encode, ok_bind]
      by_cases hle : codec.height s ≤ height
      · rw [if_pos hle]
        refine ⟨some s, rfl, List.mem_cons_self, hle, fun g _ v hg hlt => ?_⟩
        rcases List.mem_cons.mp hg with heq | hg
        · rw [show snapshotKey g = snapshotKey (codec.height s) from congrArg Prod.fst heq,
            Std.ReflOrd.compare_self] at hlt
          cases hlt
        · have hgt := hhead _ hg
          rw [Std.OrientedOrd.eq_swap, hlt] at hgt
          cases hgt
      · rw [if_neg hle]
        obtain ⟨answer, hok, hanswer⟩ := ih hrest (fun a ha b hb => hfirst a (List.mem_cons_of_mem _ ha) b
          (List.mem_cons_of_mem _ hb)) fun e he => hentries e (List.mem_cons_of_mem _ he)
        refine ⟨answer, hok, ?_⟩
        have hnot : ∀ g ≤ height, ∀ v, (snapshotKey g, v) ≠ (snapshotKey (codec.height s), codec.encode s) := by
          intro g hg v heq
          rw [Prod.mk.injEq, snapshotKey_inj] at heq
          exact hle (heq.1 ▸ hg)
        cases answer with
        | none =>
          intro g hg v hmem
          rcases List.mem_cons.mp hmem with heq | hmem
          · exact hnot g hg v heq
          · exact hanswer g hg v hmem
        | some s' =>
          refine ⟨List.mem_cons_of_mem _ hanswer.1, hanswer.2.1, fun g hg v hmem => ?_⟩
          rcases List.mem_cons.mp hmem with heq | hmem
          · exact absurd heq (hnot g hg v)
          · exact hanswer.2.2 g hg v hmem
    · -- the loop breaks at a foreign key, below which no snapshot can follow
      rw [if_neg hstarts]
      refine ⟨none, rfl, fun g _ v hmem => ?_⟩
      rcases List.mem_cons.mp hmem with heq | hmem
      · exact hstarts (by rw [← heq]; exact prefix_snapshotKey g)
      · have hbelow := hhead _ hmem
        have habove := hfirst e List.mem_cons_self _ (List.mem_cons_of_mem _ hmem) hstarts (prefix_snapshotKey g)
        rw [Std.OrientedOrd.eq_swap, habove] at hbelow
        cases hbelow

/-- The keys below a start, the greatest first. -/
def below (start : Bytes) (m : Store) : List (Bytes × Bytes) :=
  (m.toList.filter fun e => compare e.1 start = .lt).reverse

theorem below_fall (start : Bytes) (m : Store) : (below start m).Pairwise fun a b => compare b.1 a.1 = .lt :=
  List.pairwise_reverse.mpr (Std.ExtTreeMap.ordered_keys_toList.filter _)

theorem mem_below {start : Bytes} {e : Bytes × Bytes} :
    e ∈ below start m ↔ m[e.1]? = some e.2 ∧ compare e.1 start = .lt := by
  unfold below
  rw [List.mem_reverse, List.mem_filter, decide_eq_true_iff]
  exact and_congr_left fun _ => Std.ExtTreeMap.mem_toList_iff_getElem?_eq_some

theorem below_first {a b : Bytes × Bytes} (ha : a ∈ below (snapshotKey height) m)
    (hforeign : ¬ snapshotPrefix <+: a.1) (hb : snapshotPrefix <+: b.1) : compare a.1 b.1 = .lt := by
  obtain ⟨l, hl⟩ := hb
  rw [← hl, ← (mem_below.mp ha).2]
  exact compare_of_prefix hforeign

theorem below_entries (h : Sound codec m) {start : Bytes} {e : Bytes × Bytes} (he : e ∈ below start m)
    (hstarts : snapshotPrefix <+: e.1) : ∃ s, e = (snapshotKey (codec.height s), codec.encode s) := by
  obtain ⟨s, hk, hv⟩ := h.entries e.1 e.2 (mem_below.mp he).1 hstarts
  exact ⟨s, Prod.ext hk hv⟩

theorem mem_take_below (h : Sound codec m) {g : ℕ} {v : Bytes}
    (hg : (snapshotKey g, v) ∈ below (snapshotKey height) m) :
    (snapshotKey g, v) ∈ (below (snapshotKey height) m).take 1000 := by
  by_contra hcut
  have hfall := below_fall (snapshotKey height) m
  rw [← List.take_append_drop 1000 (below (snapshotKey height) m), List.pairwise_append] at hfall
  obtain ⟨htake, -, hacross⟩ := hfall
  have hdrop : (snapshotKey g, v) ∈ (below (snapshotKey height) m).drop 1000 := by
    rw [← List.take_append_drop 1000 (below (snapshotKey height) m), List.mem_append] at hg
    exact hg.resolve_left hcut
  -- all that come before it are snapshots too
  have hread : ∀ e ∈ (below (snapshotKey height) m).take 1000,
      ∃ s, e = (snapshotKey (codec.height s), codec.encode s) := by
    intro e he
    refine below_entries h (List.mem_of_mem_take he) ?_
    by_contra hforeign
    have hlt := below_first (List.mem_of_mem_take he) hforeign (b := (snapshotKey g, v)) (prefix_snapshotKey g)
    have hgt := hacross e he _ hdrop
    rw [Std.OrientedOrd.eq_swap, hlt] at hgt
    cases hgt
  have hheight : ∀ e ∈ (below (snapshotKey height) m).take 1000,
      e.1 = snapshotKey ((parseU64 (e.1.drop snapshotPrefix.length)).getD 0) := by
    intro e he
    obtain ⟨s, rfl⟩ := hread e he
    dsimp only
    rw [parse_snapshotKey (codec.height_lt s), Option.getD_some]
  have hfew := h.few (((below (snapshotKey height) m).take 1000).map fun e =>
    (parseU64 (e.1.drop snapshotPrefix.length)).getD 0) ?_ ?_
  · have hlong : 1000 < (below (snapshotKey height) m).length := by
      by_contra hshort
      rw [List.drop_eq_nil_of_le (Nat.le_of_not_lt hshort)] at hdrop
      cases hdrop
    rw [List.length_map, List.length_take, min_eq_left hlong.le] at hfew
    exact absurd hfew (by decide)
  · refine List.pairwise_map.mpr (htake.imp_of_mem fun ha hb hlt heq => ?_)
    rw [hheight _ ha, hheight _ hb, heq, Std.ReflOrd.compare_self] at hlt
    cases hlt
  · intro g' hg'
    obtain ⟨e, he, rfl⟩ := List.mem_map.mp hg'
    have hmem := (mem_below.mp (List.mem_of_mem_take he)).1
    exact hasSnapshot_of_some (hheight e he ▸ hmem)

/-- **What the scan finds.** -/
theorem scan_spec (h : Sound codec m) :
    ∃ answer, firstAtMost codec height (scanFromReverse (snapshotKey height) m) = .ok answer ∧
      Scanned codec height m answer := by
  have hsub : ∀ e ∈ (below (snapshotKey height) m).take 1000, e ∈ below (snapshotKey height) m := fun _ =>
    List.mem_of_mem_take
  obtain ⟨answer, hok, hanswer⟩ := @firstAtMost_spec _ codec height _
    ((below_fall (snapshotKey height) m).sublist (List.take_sublist 1000 _))
    (fun a ha b _ => below_first (hsub a ha)) (fun e he => below_entries h (hsub e he))
  refine ⟨answer, hok, ?_⟩
  have hrow : ∀ g, HasSnapshot m g → TextBefore g height →
      ∃ v, (snapshotKey g, v) ∈ (below (snapshotKey height) m).take 1000 := by
    intro g hg hbefore
    obtain ⟨v, hv⟩ := Option.isSome_iff_exists.mp (Std.ExtTreeMap.mem_iff_isSome_getElem?.mp hg)
    exact ⟨v, mem_take_below h (mem_below.mpr ⟨hv, (compare_append _ _ _).trans hbefore⟩)⟩
  cases answer with
  | none =>
    intro g hle hg hbefore
    obtain ⟨v, hv⟩ := hrow g hg hbefore
    exact hanswer g hle v hv
  | some s =>
    obtain ⟨hmem, hle, hlast⟩ := hanswer
    obtain ⟨hv, hlt⟩ := mem_below.mp (hsub _ hmem)
    refine ⟨hv, hle, (compare_append _ _ _).symm.trans hlt, fun g hg hhas hbefore hafter => ?_⟩
    obtain ⟨v, hv⟩ := hrow g hhas hbefore
    exact hlast g hg v hv ((compare_append _ _ _).trans hafter)

theorem exists_greatest {g : ℕ} (hle : g ≤ height) (hg : HasSnapshot m g) :
    ∃ k ≤ height, HasSnapshot m k ∧ ∀ g' ≤ height, HasSnapshot m g' → g' ≤ k := by
  classical
  refine ⟨Nat.findGreatest (HasSnapshot m) height, Nat.findGreatest_le _, Nat.findGreatest_spec hle hg, ?_⟩
  exact fun g' hle' hg' => Nat.le_findGreatest hle' hg'

/-- **When the scan is right.** -/
theorem scan_right_iff (h : Sound codec m) :
    (∃ answer, firstAtMost codec height (scanFromReverse (snapshotKey height) m) = .ok answer ∧
      IsLatestAtMost codec height m answer) ↔ GreatestIsNextText height m := by
  obtain ⟨scanned, hok, hscanned⟩ := @scan_spec _ _ _ height h
  constructor
  · rintro ⟨answer, hanswer, hlatest⟩
    rw [hok] at hanswer
    cases hanswer
    intro g hle hg hgreatest
    cases scanned with
    | none => exact absurd hg (hlatest g hle)
    | some s =>
      have hheight : codec.height s = g := Nat.le_antisymm
        (hgreatest _ hscanned.2.1 (hasSnapshot_of_some hscanned.1))
        (hlatest.2.2 g hle hg)
      rw [← hheight]
      exact ⟨hscanned.2.2.1, hscanned.2.2.2⟩
  · intro hnext
    refine ⟨scanned, hok, ?_⟩
    cases scanned with
    | none =>
      intro g hle hg
      obtain ⟨k, hk, hhas, hgreatest⟩ := exists_greatest hle hg
      exact hscanned k hk hhas (hnext k hk hhas hgreatest).1
    | some s =>
      obtain ⟨hv, hle, hbefore, hlast⟩ := hscanned
      have hstored : HasSnapshot m (codec.height s) := hasSnapshot_of_some hv
      obtain ⟨k, hk, hhas, hgreatest⟩ := exists_greatest hle hstored
      obtain ⟨hkBefore, hkLast⟩ := hnext k hk hhas hgreatest
      -- the two heights follow each other in neither direction, so their texts are the same
      have hsame : k = codec.height s := by
        refine decimal_inj (Std.LawfulEqOrd.eq_of_compare ?_)
        have hup := hkLast _ hle hstored hbefore
        have hdown := hlast k hk hhas hkBefore
        unfold TextBefore at hup hdown
        cases hcompare : compare (decimal k) (decimal (codec.height s)) with
        | eq => rfl
        | lt => exact absurd hcompare hup
        | gt =>
          rw [Std.OrientedOrd.eq_swap, hcompare] at hdown
          exact absurd rfl hdown
      refine ⟨hv, hle, ?_⟩
      rw [← hsame]
      exact hgreatest

end Scan

/-- **When the height saved last is the right one.** -/
theorem load_right_iff {S : Type} {codec : SnapshotCodec S} {m : Store} {latest height : ℕ} (h : Sound codec m)
    (hle : latest ≤ height) :
    (∃ answer, loadSnapshot codec latest m = .ok answer ∧ IsLatestAtMost codec height m answer) ↔
      LatestIsGreatest latest height m := by
  unfold loadSnapshot
  cases hv : m[snapshotKey latest]? with
  | none =>
    have hnot : ¬ HasSnapshot m latest := by
      unfold HasSnapshot
      rw [Std.ExtTreeMap.mem_iff_isSome_getElem?, hv]
      exact Bool.false_ne_true
    constructor
    · rintro ⟨answer, hok, hanswer⟩ g hg hhas
      cases hok
      exact absurd hhas (hanswer g hg)
    · intro hgreatest
      exact ⟨none, rfl, fun g hg hhas => hnot (hgreatest g hg hhas).1⟩
  | some v =>
    obtain ⟨s, hk, rfl⟩ := h.entries _ v hv (prefix_snapshotKey latest)
    obtain rfl := snapshotKey_inj.mp hk
    have hhas : HasSnapshot m (codec.height s) := hasSnapshot_of_some hv
    dsimp only
    rw [codec.decode_encode, ok_bind]
    constructor
    · rintro ⟨answer, hok, hanswer⟩ g hg hstored
      cases hok
      exact ⟨hhas, hanswer.2.2 g hg hstored⟩
    · intro hgreatest
      exact ⟨some s, rfl, hv, hle, fun g hg hstored => (hgreatest g hg hstored).2⟩

/-- **When `load_latest_snapshot_before` is right**, in every store that saves lead to. -/
theorem latest_before_iff {S : Type} {codec : SnapshotCodec S} {m : Store} (h : Stored codec m) (height : ℕ) :
    AnswersRightly codec height m ↔ Answerable height m := by
  have hsound := sound_of_stored h
  unfold AnswersRightly Answerable loadLatestSnapshotBefore latestHeight
  rcases hsound.latest with ⟨hnone, -⟩ | ⟨latest, hlt, hlatest⟩
  · rw [hnone]
    exact scan_right_iff hsound
  · have hread : leNat (leBytes 8 latest) = latest := leNat_leBytes hlt
    rw [hlatest, Option.map_some]
    dsimp only
    rw [if_neg (not_not.mpr (length_leBytes 8 latest)), hread]
    by_cases hle : latest ≤ height
    · rw [if_pos hle, if_pos hle]
      exact load_right_iff hsound hle
    · rw [if_neg hle, if_neg hle]
      exact scan_right_iff hsound

/-! ### Snapshots that are their heights -/

def heightCodec : SnapshotCodec UInt64 where
  height s := s.toNat
  height_lt s := s.toNat_lt
  encode s := leBytes 8 s.toNat
  decode bs := if bs.length = 8 then .ok (UInt64.ofNat (leNat bs)) else .error "unexpected end"
  decode_encode s := by
    rw [if_pos (length_leBytes 8 s.toNat), leNat_leBytes s.toNat_lt, UInt64.ofNat_toNat]
  checkpoint _ := none

def storeOf (heights : List UInt64) : Store := heights.foldl (fun m s => saveSnapshot heightCodec true s m) ∅

theorem stored_storeOf (heights : List UInt64) : Stored heightCodec (storeOf heights) := by
  induction heights using List.reverseRecOn with
  | nil => exact Stored.empty
  | append_singleton heights s ih =>
    unfold storeOf
    rw [List.foldl_append]
    exact Stored.save true s ih

theorem latest_before_sample : AnswersRightly heightCodec 30 (storeOf [5, 20]) := by
  refine (latest_before_iff (stored_storeOf [5, 20]) 30).mpr ?_
  have hlatest : latestHeight (storeOf [5, 20]) = some 20 := by decide +kernel
  have hgreatest : ∀ g ≤ 30, snapshotKey g ∈ storeOf [5, 20] → snapshotKey 20 ∈ storeOf [5, 20] ∧ g ≤ 20 := by
    decide +kernel
  unfold Answerable
  rw [hlatest]
  exact hgreatest

/-- After the saves at 9 and 10 no snapshot is found at or below 9. -/
theorem snapshot_missed :
    ¬ ∀ (m : Store) (height : ℕ), Stored heightCodec m → AnswersRightly heightCodec height m := by
  intro h
  obtain ⟨answer, hok, hanswer⟩ := h (storeOf [9, 10]) 9 (stored_storeOf [9, 10])
  have hnone : (loadLatestSnapshotBefore heightCodec 9 (storeOf [9, 10])).toOption =
      some none := by decide +kernel
  rw [hok] at hnone
  cases hnone
  have hhas : snapshotKey 9 ∈ storeOf [9, 10] := by decide +kernel
  exact hanswer 9 le_rfl hhas

end TruthLinked.Consensus.SnapshotStore
