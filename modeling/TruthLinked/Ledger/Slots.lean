import TruthLinked.Core.Bytes
import TruthLinked.Ledger.CellSpecs
import TruthLinked.Ledger.Mcp
import TruthLinked.Lib.Table

/-! # Words and slots of a native handler

What the packed words read back, and what a slot holds after the writes of a call when the slots are digests:
labels stand for the inputs of the digests, and where no two of them collide (`Set.InjOn`) a slot holds what
the last write of its label says (`getElem?_write`). -/

namespace TruthLinked.Ledger.Slots

open Core.Types Core.Bytes Governance.Types Staking.State Ledger.Model Ledger.Phases Ledger.SystemCells
open Ledger.CellSpecs Ledger.Mcp Lib.Keyed Lib.Table

/-! ## Words -/

theorem decodeU64_packU64 {n : ℕ} (h : n < u64) : decodeU64 (packU64 n) = n := by
  have hlen : (leBytes 8 n ++ List.replicate 24 0).length = 32 := by simp
  have htake : (leBytes 8 n ++ List.replicate 24 0).take 8 = leBytes 8 n := by
    rw [List.take_left' (length_leBytes 8 n)]
  unfold decodeU64 packU64 encodeU64
  rw [ofBytes32_toBytes32 hlen, htake, leNat_leBytes h]

theorem decodeU128_packU128 {n : ℕ} (h : n < u128) : decodeU128 (packU128 n) = n := by
  have hlen : (leBytes 16 n ++ List.replicate 16 0).length = 32 := by simp
  have htake : (leBytes 16 n ++ List.replicate 16 0).take 16 = leBytes 16 n := by
    rw [List.take_left' (length_leBytes 16 n)]
  unfold decodeU128 packU128
  rw [ofBytes32_toBytes32 hlen, htake, leNat_leBytes h]

theorem decodeU64_lt (v : Bytes32) : decodeU64 v < u64 := by
  have hlen : ((ofBytes32 v).take 8).length = 8 := by simp
  have h := leNat_lt ((ofBytes32 v).take 8)
  rwa [hlen] at h

theorem readSlotU64_lt (storage : Storage) (key : Bytes32) : readSlotU64 storage key < u64 := by
  unfold readSlotU64
  cases storage[key]? with
  | none => decide
  | some v => exact decodeU64_lt v

theorem headD_flagWord (b : UInt8) : (ofBytes32 (flagWord b)).headD 0 = b := by
  have hlen : (b :: List.replicate 31 0).length = 32 := by simp
  rw [flagWord, ofBytes32_toBytes32 hlen]
  rfl

theorem unpack_packStakingPosition {amount lockEnd : ℕ} (ha : amount < u128) (he : lockEnd < u64) :
    unpackStakingPosition (packStakingPosition amount lockEnd) = (amount, lockEnd) := by
  have hlen : (leBytes 16 amount ++ List.replicate 8 0 ++ leBytes 8 lockEnd).length = 32 := by simp
  have htake : (leBytes 16 amount ++ List.replicate 8 0 ++ leBytes 8 lockEnd).take 16 = leBytes 16 amount := by
    rw [List.append_assoc, List.take_left' (length_leBytes 16 amount)]
  have hdrop : (leBytes 16 amount ++ List.replicate 8 0 ++ leBytes 8 lockEnd).drop 24 = leBytes 8 lockEnd := by
    rw [List.drop_left' (by simp)]
  unfold unpackStakingPosition packStakingPosition
  rw [ofBytes32_toBytes32 hlen, htake, hdrop, leNat_leBytes ha, leNat_leBytes he]

theorem flagAt_of_some {storage : Storage} {key v : Bytes32} (h : storage[key]? = some v) :
    flagAt storage key = (ofBytes32 v).headD 0 := by
  rw [flagAt, h]
  rfl

theorem flagAt_of_none {storage : Storage} {key : Bytes32} (h : storage[key]? = none) :
    flagAt storage key = 0 := by
  rw [flagAt, h]
  rfl

theorem flagAt_congr {storage storage' : Storage} {key : Bytes32} (h : storage'[key]? = storage[key]?) :
    flagAt storage' key = flagAt storage key := by
  rw [flagAt, flagAt, h]

theorem readSlotU64_congr {storage storage' : Storage} {key : Bytes32} (h : storage'[key]? = storage[key]?) :
    readSlotU64 storage' key = readSlotU64 storage key := by
  rw [readSlotU64, readSlotU64, h]

theorem readSlotU64_of_some {storage : Storage} {key v : Bytes32} (h : storage[key]? = some v) :
    readSlotU64 storage key = decodeU64 v := by
  rw [readSlotU64, h]
  rfl

theorem readSlotU128_congr {storage storage' : Storage} {key : Bytes32} (h : storage'[key]? = storage[key]?) :
    readSlotU128 storage' key = readSlotU128 storage key := by
  rw [readSlotU128, readSlotU128, h]

theorem readSlotU128_of_some {storage : Storage} {key v : Bytes32} (h : storage[key]? = some v) :
    readSlotU128 storage key = decodeU128 v := by
  rw [readSlotU128, h]
  rfl

/-! ## Writes -/

theorem slot_fromList {V : Type} (l : List (Bytes32 × V)) (k : Bytes32) :
    (fromList l)[k]? = (lastOf Prod.fst k l).map Prod.snd := by
  have h := getElem?_foldl_insert (∅ : Map Bytes32 V) k Prod.fst Prod.snd l
  rw [Std.ExtTreeMap.getElem?_empty, Option.or_none] at h
  exact h

/-- An entry of a map that is made from entries with different keys. -/
theorem slot_fromList_of_mem {V : Type} {l : List (Bytes32 × V)} (hkeys : (l.map Prod.fst).Nodup)
    {k : Bytes32} {v : V} (h : (k, v) ∈ l) : (fromList l)[k]? = some v := by
  rw [slot_fromList]
  induction l using List.reverseRecOn with
  | nil => cases h
  | append_singleton l x ih =>
    rw [List.map_append, List.nodup_append] at hkeys
    rw [lastOf_concat]
    rcases List.mem_append.mp h with h | h
    · rw [if_neg fun hx => hkeys.2.2 k (List.mem_map_of_mem h) x.1 (by simp) hx.symm]
      exact ih hkeys.1 h
    · obtain rfl := List.mem_singleton.mp h
      rw [if_pos rfl]
      rfl

section Labels
variable {L : Type} [DecidableEq L] {key : L → Bytes32} {S : Set L} {t : L}

/-- The storage after some writes, by label. -/
def write (key : L → Bytes32) (storage : Storage) (writes : List (L × Option Bytes32)) : Storage :=
  changeStorage storage (fromList (writes.map fun w => (key w.1, w.2)))

theorem lastOf_key (hinj : Set.InjOn key S) (ht : t ∈ S) {writes : List (L × Option Bytes32)}
    (hw : ∀ w ∈ writes, w.1 ∈ S) :
    lastOf (fun w : L × Option Bytes32 => key w.1) (key t) writes = lastOf Prod.fst t writes := by
  unfold lastOf
  congr 1
  refine List.filter_congr fun w hmem => ?_
  rw [decide_eq_decide]
  exact ⟨fun h => hinj (hw w hmem) ht h, fun h => congrArg key h⟩

/-- What a slot holds after some writes, the last one of its label counting. -/
def overlaid (writes : List (L × Option Bytes32)) (t : L) (old : Option Bytes32) : Option Bytes32 :=
  writes.foldl (fun v w => if w.1 = t then w.2 else v) old

theorem overlaid_eq (writes : List (L × Option Bytes32)) (t : L) (old : Option Bytes32) :
    overlaid writes t old = ((lastOf Prod.fst t writes).map Prod.snd).getD old := by
  induction writes using List.reverseRecOn with
  | nil => rfl
  | append_singleton writes w ih =>
    rw [overlaid, List.foldl_append, lastOf_concat, List.foldl_cons, List.foldl_nil]
    split
    · rfl
    · exact ih

theorem overlaid_of_ne {writes : List (L × Option Bytes32)} (h : ∀ w ∈ writes, w.1 ≠ t) (old : Option Bytes32) :
    overlaid writes t old = old := by
  rw [overlaid_eq, lastOf_eq_none.mpr h]
  rfl

/-- **A slot after some writes**. -/
theorem getElem?_write (hinj : Set.InjOn key S) (ht : t ∈ S) {writes : List (L × Option Bytes32)}
    (hw : ∀ w ∈ writes, w.1 ∈ S) (storage : Storage) :
    (write key storage writes)[key t]? = overlaid writes t storage[key t]? := by
  have hslot := slot_changeStorage storage (fromList (writes.map fun w => (key w.1, w.2))) (key t)
  have hmap : (lastOf Prod.fst (key t) (writes.map fun w => (key w.1, w.2))).map Prod.snd =
      (lastOf Prod.fst t writes).map Prod.snd := by
    rw [lastOf_map, lastOf_key hinj ht hw, Option.map_map]
    rfl
  unfold slot at hslot
  rw [slot_fromList, hmap, ← overlaid_eq] at hslot
  exact hslot

/-- Two storages that differ by some writes, as far as the slots in `S` go. -/
def Written (key : L → Bytes32) (S : Set L) (writes : List (L × Option Bytes32))
    (storage storage' : Storage) : Prop :=
  ∀ l ∈ S, storage'[key l]? = overlaid writes l storage[key l]?

section Written
variable {writes : List (L × Option Bytes32)} {storage storage' : Storage}

theorem written_write (hinj : Set.InjOn key S) (hw : ∀ w ∈ writes, w.1 ∈ S) (storage : Storage) :
    Written key S writes storage (write key storage writes) := fun _ hl => getElem?_write hinj hl hw storage

theorem Written.number (hw : Written key S writes storage storage') (ht : t ∈ S) {v : ℕ} (hv : v < u64)
    (hover : ∀ old, overlaid writes t old = some (packU64 v)) : readSlotU64 storage' (key t) = v := by
  rw [readSlotU64_of_some ((hw t ht).trans (hover _)), decodeU64_packU64 hv]

theorem Written.amount (hw : Written key S writes storage storage') (ht : t ∈ S) {v : ℕ} (hv : v < u128)
    (hover : ∀ old, overlaid writes t old = some (packU128 v)) : readSlotU128 storage' (key t) = v := by
  rw [readSlotU128_of_some ((hw t ht).trans (hover _)), decodeU128_packU128 hv]

theorem Written.flag (hw : Written key S writes storage storage') (ht : t ∈ S) {v : Bytes32}
    (hover : ∀ old, overlaid writes t old = some v) : flagAt storage' (key t) = (ofBytes32 v).headD 0 := by
  rw [flagAt_of_some ((hw t ht).trans (hover _))]

theorem Written.same (hw : Written key S writes storage storage') (ht : t ∈ S) (hne : ∀ w ∈ writes, w.1 ≠ t) :
    storage'[key t]? = storage[key t]? := (hw t ht).trans (overlaid_of_ne hne _)

end Written

end Labels

end TruthLinked.Ledger.Slots
