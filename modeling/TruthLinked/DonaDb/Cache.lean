import TruthLinked.Core.Types
import TruthLinked.Lib.Table

/-! # The value cache

`ValueCache` of `value_cache.rs`, for any capacity but 0 (such a cache takes nothing): a bounded map with
CLOCK eviction. What it may forget depends on the clock; what it holds for a key is always the value
inserted last (`held_insert`, `held_remove`). -/

namespace TruthLinked.DonaDb.Cache

open Core.Types Lib.Table

/-- One more than `u64::MAX`, where the clock hand wraps. -/
def handLimit : ℕ := 18446744073709551616

/-- `ValueCache`: its capacity, the values with their slots, the keys in the slots and the clock. -/
structure ValueCache where
  maxEntries : ℕ
  pos : 0 < maxEntries
  map : Map Bytes32 (Bytes × ℕ)
  count : ℕ
  slots : ℕ → Option Bytes32
  refBits : ℕ → Bool
  clockHand : ℕ

/-- The capacity that a cache takes on: at most `1 << 20`. -/
def capacity (maxEntries : ℕ) : ℕ := min maxEntries 1048576

theorem capacity_pos {maxEntries : ℕ} (h : 0 < maxEntries) : 0 < capacity maxEntries := lt_min h (by decide)

/-- `ValueCache::new`. -/
def ValueCache.new (maxEntries : ℕ) (h : 0 < maxEntries) : ValueCache :=
  { maxEntries := capacity maxEntries, pos := capacity_pos h, map := ∅, count := 0, slots := fun _ => none,
    refBits := fun _ => false, clockHand := 0 }

theorem engineCache_pos : 0 < 200000 := by decide

/-- The cache of the engine. -/
def ValueCache.engine : ValueCache := .new 200000 engineCache_pos

/-- `clock_hand.fetch_add(1)`. -/
def ValueCache.turnHand (c : ValueCache) : ValueCache :=
  { c with clockHand := (c.clockHand + 1) % handLimit }

/-- One slot of the sweep in `evict_one_clock`; the flag says that a victim was found. There the source
asks for the lock on the slot that it still holds for reading, and waits for ever: what the model leaves
after a victim is what the code is written to leave. -/
def ValueCache.sweep (c : ValueCache) : ValueCache × Bool :=
  let slot := c.clockHand % c.maxEntries
  let referenced := c.refBits slot
  let c := { c.turnHand with refBits := Function.update c.refBits slot false }
  if referenced then (c, false)
  else
    match c.slots slot with
    | none => (c, false)
    | some victim =>
      if victim ∈ c.map then
        ({ c with
            map := c.map.erase victim
            slots := Function.update c.slots slot none
            count := c.count - 1 }, true)
      else (c, false)

/-- The loop of `evict_one_clock`. -/
def ValueCache.evictLoop : ℕ → ValueCache → ValueCache
  | 0, c => c
  | n + 1, c =>
    match c.sweep with
    | (c, true) => c
    | (c, false) => evictLoop n c

/-- `ValueCache::evict_one_clock`. -/
def ValueCache.evictOneClock (c : ValueCache) : ValueCache :=
  c.evictLoop (min c.maxEntries 1024)

/-- `ValueCache::insert`. -/
def ValueCache.insert (c : ValueCache) (key : Bytes32) (value : Bytes) : ValueCache :=
  match c.map[key]? with
  | some (_, slot) =>
    { c with map := c.map.insert key (value, slot), refBits := Function.update c.refBits slot true }
  | none =>
    let c := if c.maxEntries ≤ c.count then c.evictOneClock else c
    let slot := c.clockHand % c.maxEntries
    { c.turnHand with
      map := c.map.insert key (value, slot)
      slots := Function.update c.slots slot (some key)
      refBits := Function.update c.refBits slot true
      count := c.count + 1 }

/-- `ValueCache::get`: a hit marks the slot as used. -/
def ValueCache.get (c : ValueCache) (key : Bytes32) : Option Bytes × ValueCache :=
  match c.map[key]? with
  | some (value, slot) => (some value, { c with refBits := Function.update c.refBits slot true })
  | none => (none, c)

/-- `ValueCache::remove`. -/
def ValueCache.remove (c : ValueCache) (key : Bytes32) : ValueCache :=
  match c.map[key]? with
  | some (_, slot) =>
    { c with
      map := c.map.erase key
      slots := Function.update c.slots slot none
      refBits := Function.update c.refBits slot false
      count := c.count - 1 }
  | none => c

/-- `ValueCache::clear`. -/
def ValueCache.clear (c : ValueCache) : ValueCache :=
  { c with map := ∅, count := 0, slots := fun _ => none, refBits := fun _ => false, clockHand := 0 }

/-- What the cache holds for a key. -/
def ValueCache.held (c : ValueCache) (key : Bytes32) : Option Bytes := (c.map[key]?).map Prod.fst

variable {c : ValueCache} {key k : Bytes32} {value v : Bytes}

theorem fst_get (c : ValueCache) (key : Bytes32) : (c.get key).1 = c.held key := by
  unfold ValueCache.get ValueCache.held
  cases c.map[key]? <;> rfl

theorem held_get (c : ValueCache) (key : Bytes32) : (c.get key).2.held = c.held := by
  unfold ValueCache.get
  cases c.map[key]? <;> rfl

@[simp] theorem held_clear (c : ValueCache) (k : Bytes32) : c.clear.held k = none := by
  simp [ValueCache.held, ValueCache.clear]

@[simp] theorem held_new (n : ℕ) (h : 0 < n) (k : Bytes32) : (ValueCache.new n h).held k = none := by
  simp [ValueCache.held, ValueCache.new]

@[simp] theorem held_engine (k : Bytes32) : ValueCache.engine.held k = none := held_new _ _ k

theorem maxEntries_evictLoop (turns : ℕ) (c : ValueCache) : (c.evictLoop turns).maxEntries = c.maxEntries := by
  induction turns generalizing c with
  | zero => rfl
  | succ turns ih =>
    have hsweep : c.sweep.1.maxEntries = c.maxEntries := by
      unfold ValueCache.sweep
      dsimp only
      split_ifs
      · rfl
      · split
        · rfl
        · split_ifs <;> rfl
    rw [ValueCache.evictLoop]
    cases hs : c.sweep with
    | mk c' found =>
      rw [hs] at hsweep
      cases found with
      | true => exact hsweep
      | false => exact (ih c').trans hsweep

theorem maxEntries_insert (c : ValueCache) (key : Bytes32) (value : Bytes) :
    (c.insert key value).maxEntries = c.maxEntries := by
  unfold ValueCache.insert
  dsimp only
  split
  · rfl
  · split_ifs
    · exact maxEntries_evictLoop _ c
    · rfl

theorem maxEntries_remove (c : ValueCache) (key : Bytes32) : (c.remove key).maxEntries = c.maxEntries := by
  unfold ValueCache.remove
  split <;> rfl

/-- A cleared cache keeps its capacity and nothing else. -/
theorem clear_congr {c c' : ValueCache} (h : c.maxEntries = c'.maxEntries) : c.clear = c'.clear := by
  unfold ValueCache.clear
  congr

theorem held_remove (h : (c.remove key).held k = some v) : k ≠ key ∧ c.held k = some v := by
  unfold ValueCache.remove at h
  cases hkey : c.map[key]? with
  | none =>
    rw [hkey] at h
    refine ⟨?_, h⟩
    rintro rfl
    rw [ValueCache.held, hkey] at h
    cases h
  | some p =>
    rw [hkey] at h
    simp only [ValueCache.held, getElem?_erase_ite] at h
    split at h
    · cases h
    case isFalse hne => exact ⟨hne, h⟩

theorem held_sweep (h : c.sweep.1.held k = some v) : c.held k = some v := by
  unfold ValueCache.sweep at h
  dsimp only at h
  split at h
  · exact h
  · split at h
    · exact h
    · split at h
      · simp only [ValueCache.held, getElem?_erase_ite] at h
        split at h
        · cases h
        · exact h
      · exact h

theorem held_evictLoop (n : ℕ) (h : (c.evictLoop n).held k = some v) : c.held k = some v := by
  induction n generalizing c with
  | zero => exact h
  | succ n ih =>
    rw [ValueCache.evictLoop] at h
    have hsweep := held_sweep (c := c) (k := k) (v := v)
    cases hs : c.sweep with
    | mk c' found =>
      rw [hs] at h hsweep
      cases found with
      | true => exact hsweep h
      | false => exact hsweep (ih h)

/-- **A cached value is the inserted one**, or that of another key from before. -/
theorem held_insert (h : (c.insert key value).held k = some v) :
    (k = key ∧ v = value) ∨ (k ≠ key ∧ c.held k = some v) := by
  unfold ValueCache.insert at h
  cases hkey : c.map[key]? with
  | some p =>
    rw [hkey] at h
    simp only [ValueCache.held, getElem?_insert_ite] at h
    split at h
    case isTrue hk => exact .inl ⟨hk, (Option.some.inj h).symm⟩
    case isFalse hk => exact .inr ⟨hk, h⟩
  | none =>
    rw [hkey] at h
    simp only [ValueCache.held, getElem?_insert_ite] at h
    split at h
    case isTrue hk => exact .inl ⟨hk, (Option.some.inj h).symm⟩
    case isFalse hk =>
      refine .inr ⟨hk, ?_⟩
      split at h
      · exact held_evictLoop _ h
      · exact h

end TruthLinked.DonaDb.Cache
