import TruthLinked.DonaDb.Cache
import TruthLinked.Lib.Run

/-! # The slots of the value cache

Runs of a `ValueCache` of any capacity by one thread. Each cached key should have one slot, of which there are
as many as the cache may hold keys (`Tidy`). A new key goes to the slot under the clock hand, whatever is
there: the slots stay in order as long as that one is free (`tidy_step`). -/

namespace TruthLinked.DonaDb.ClockCache

open Core.Types Lib.Table Lib.Run DonaDb.Cache

/-! ## Operations and runs -/

/-- The operations of the cache. -/
inductive Op where
  | insert (key : Bytes32) (value : Bytes)
  | get (key : Bytes32)
  | remove (key : Bytes32)
  | clear

/-- One operation. -/
def step (c : ValueCache) : Op → ValueCache
  | .insert key value => c.insert key value
  | .get key => (c.get key).2
  | .remove key => c.remove key
  | .clear => c.clear

/-- The value of a key that the operations leave, if nothing is evicted. -/
def latestStep (k : Bytes32) (latest : Option Bytes) : Op → Option Bytes
  | .insert key value => if k = key then some value else latest
  | .get _ => latest
  | .remove key => if k = key then none else latest
  | .clear => none

/-- The last inserted value of a key. -/
def latest (k : Bytes32) (ops : List Op) : Option Bytes := run (latestStep k) none ops

/-- The slots are in order: a cached key has a slot, and a slot that is in use has a cached key. -/
structure Tidy (c : ValueCache) : Prop where
  count : c.count = c.map.size
  slot : ∀ k v s, c.map[k]? = some (v, s) → s < c.maxEntries ∧ c.slots s = some k
  key : ∀ s k, c.slots s = some k → ∃ v, c.map[k]? = some (v, s)

/-- A new key finds the slot under the hand free. -/
def Fits (c : ValueCache) : Op → Prop
  | .insert key _ => key ∈ c.map ∨ c.slots (c.clockHand % c.maxEntries) = none
  | _ => True

section
variable {n : ℕ} {c : ValueCache} {k : Bytes32} {v : Bytes}

theorem tidy_new (n : ℕ) (h : 0 < n) : Tidy (.new n h) where
  count := rfl
  slot k v s h := by simp [ValueCache.new] at h
  key s k h := nomatch h

/-- The slot of a key. -/
def slotOf (c : ValueCache) (k : Bytes32) : ℕ := (c.map[k]?.map Prod.snd).getD 0

/-- **As many keys as slots at most**, whatever slots they may have. -/
theorem Tidy.count_le_card (h : Tidy c) (S : Finset ℕ)
    (hS : ∀ (k : Bytes32) (v : Bytes) (s : ℕ), c.map[k]? = some (v, s) → s ∈ S) : c.count ≤ S.card := by
  have hentry : ∀ k ∈ c.map.keys.toFinset, ∃ v, c.map[k]? = some (v, slotOf c k) := by
    intro k hk
    rw [List.mem_toFinset, Std.ExtTreeMap.mem_keys, Std.ExtTreeMap.mem_iff_isSome_getElem?] at hk
    obtain ⟨⟨v, s⟩, hs⟩ := Option.isSome_iff_exists.mp hk
    refine ⟨v, ?_⟩
    unfold slotOf
    rw [hs]
    rfl
  have hcard : c.map.keys.toFinset.card = c.count := by
    rw [List.toFinset_card_of_nodup c.map.nodup_keys, Std.ExtTreeMap.length_keys, h.count]
  rw [← hcard]
  refine Finset.card_le_card_of_injOn (slotOf c) (fun k hk => ?_) fun k hk k' hk' heq => ?_
  · obtain ⟨v, hv⟩ := hentry k hk
    exact hS k v _ hv
  · obtain ⟨v, hv⟩ := hentry k hk
    obtain ⟨v', hv'⟩ := hentry k' hk'
    have hslot := (h.slot k v _ hv).2
    rw [heq, (h.slot k' v' _ hv').2] at hslot
    exact (Option.some.inj hslot).symm

theorem Tidy.count_le (h : Tidy c) : c.count ≤ c.maxEntries := by
  have hle := h.count_le_card (Finset.range c.maxEntries) fun k v s hs => Finset.mem_range.mpr (h.slot k v s hs).1
  rwa [Finset.card_range] at hle

theorem Tidy.not_full (h : Tidy c) (hfree : c.slots (c.clockHand % c.maxEntries) = none) :
    c.count < c.maxEntries := by
  have hmem : c.clockHand % c.maxEntries ∈ Finset.range c.maxEntries := Finset.mem_range.mpr (Nat.mod_lt _ c.pos)
  have hle := h.count_le_card ((Finset.range c.maxEntries).erase (c.clockHand % c.maxEntries)) fun k v s hs => by
    obtain ⟨hlt, hslot⟩ := h.slot k v s hs
    refine Finset.mem_erase.mpr ⟨?_, Finset.mem_range.mpr hlt⟩
    rintro rfl
    rw [hfree] at hslot
    cases hslot
  rw [Finset.card_erase_of_mem hmem, Finset.card_range] at hle
  have hpos := c.pos
  omega

theorem tidy_insert_old (h : Tidy c) {s : ℕ} {w : Bytes} (hk : c.map[k]? = some (w, s)) (refBits : ℕ → Bool) :
    Tidy { c with map := c.map.insert k (v, s), refBits } := by
  refine ⟨?_, fun k' v' s' hs' => ?_, fun s' k' hs' => ?_⟩
  · have hmem : k ∈ c.map := Std.ExtTreeMap.mem_iff_isSome_getElem?.mpr (by rw [hk]; rfl)
    rw [Std.ExtTreeMap.size_insert]
    exact h.count.trans (if_pos hmem).symm
  · rw [getElem?_insert_ite] at hs'
    split_ifs at hs' with heq
    · obtain ⟨rfl, rfl⟩ := Prod.mk.inj (Option.some.inj hs')
      exact heq ▸ h.slot k w s hk
    · exact h.slot k' v' s' hs'
  · obtain ⟨v', hv'⟩ := h.key s' k' hs'
    rw [getElem?_insert_ite]
    split_ifs with heq
    · rw [heq, hk] at hv'
      obtain ⟨-, rfl⟩ := Prod.mk.inj (Option.some.inj hv')
      exact ⟨v, rfl⟩
    · exact ⟨v', hv'⟩

theorem tidy_insert_new (h : Tidy c) {s : ℕ} (hs : s < c.maxEntries) (hk : k ∉ c.map) (hfree : c.slots s = none) :
    Tidy { c.turnHand with
      map := c.map.insert k (v, s)
      slots := Function.update c.slots s (some k)
      refBits := Function.update c.refBits s true
      count := c.count + 1 } := by
  refine ⟨?_, fun k' v' s' hs' => ?_, fun s' k' hs' => ?_⟩
  · rw [Std.ExtTreeMap.size_insert]
    exact (congrArg (· + 1) h.count).trans (if_neg hk).symm
  · rw [getElem?_insert_ite] at hs'
    split_ifs at hs' with heq
    · obtain ⟨rfl, rfl⟩ := Prod.mk.inj (Option.some.inj hs')
      exact ⟨hs, heq ▸ Function.update_self _ _ _⟩
    · obtain ⟨hlt, hslot⟩ := h.slot k' v' s' hs'
      refine ⟨hlt, ?_⟩
      dsimp only
      rw [Function.update_of_ne, hslot]
      rintro rfl
      rw [hfree] at hslot
      cases hslot
  · dsimp only at hs'
    by_cases heq : s' = s
    · subst heq
      rw [Function.update_self] at hs'
      obtain rfl := Option.some.inj hs'
      exact ⟨v, by rw [getElem?_insert_ite, if_pos rfl]⟩
    · rw [Function.update_of_ne heq] at hs'
      obtain ⟨v', hv'⟩ := h.key s' k' hs'
      refine ⟨v', ?_⟩
      rw [getElem?_insert_ite, if_neg, hv']
      rintro rfl
      exact hk (Std.ExtTreeMap.mem_iff_isSome_getElem?.mpr (by rw [hv']; rfl))

theorem tidy_get (h : Tidy c) : Tidy (c.get k).2 := by
  unfold ValueCache.get
  cases c.map[k]? with
  | none => exact h
  | some p => exact ⟨h.count, h.slot, h.key⟩

theorem tidy_remove (h : Tidy c) : Tidy (c.remove k) := by
  unfold ValueCache.remove
  cases hk : c.map[k]? with
  | none => exact h
  | some p =>
    obtain ⟨w, s⟩ := p
    have hslotk := (h.slot k w s hk).2
    refine ⟨?_, fun k' v' s' hs' => ?_, fun s' k' hs' => ?_⟩
    · have hmem : k ∈ c.map := Std.ExtTreeMap.mem_iff_isSome_getElem?.mpr (by rw [hk]; rfl)
      rw [Std.ExtTreeMap.size_erase]
      exact (congrArg (· - 1) h.count).trans (if_pos hmem).symm
    · rw [getElem?_erase_ite] at hs'
      split_ifs at hs' with heq
      obtain ⟨hlt, hslot⟩ := h.slot k' v' s' hs'
      refine ⟨hlt, ?_⟩
      dsimp only
      rw [Function.update_of_ne, hslot]
      rintro rfl
      rw [hslotk] at hslot
      exact heq (Option.some.inj hslot).symm
    · dsimp only at hs'
      by_cases heq : s' = s
      · subst heq
        rw [Function.update_self] at hs'
        cases hs'
      · rw [Function.update_of_ne heq] at hs'
        obtain ⟨v', hv'⟩ := h.key s' k' hs'
        refine ⟨v', ?_⟩
        rw [getElem?_erase_ite, if_neg, hv']
        rintro rfl
        rw [hk] at hv'
        exact heq (Prod.mk.inj (Option.some.inj hv')).2.symm

theorem tidy_clear (c : ValueCache) : Tidy c.clear :=
  ⟨rfl, fun k v s h => by simp [ValueCache.clear] at h, fun s k h => nomatch h⟩

/-- **One operation** keeps the slots in order. -/
theorem tidy_step (h : Tidy c) (op : Op) (hfits : Fits c op) : Tidy (step c op) := by
  cases op with
  | insert key value =>
    unfold step ValueCache.insert
    dsimp only
    cases hkey : c.map[key]? with
    | some p => exact tidy_insert_old h hkey _
    | none =>
      have hnot : key ∉ c.map := by
        rw [Std.ExtTreeMap.mem_iff_isSome_getElem?, hkey]
        exact Bool.false_ne_true
      have hfree := hfits.resolve_left hnot
      dsimp only
      rw [if_neg (Nat.not_le.mpr (h.not_full hfree))]
      exact tidy_insert_new h (Nat.mod_lt _ c.pos) hnot hfree
  | get key => exact tidy_get h
  | remove key => exact tidy_remove h
  | clear => exact tidy_clear c

/-! ## What is held -/

/-- **What is held after an operation** was inserted by it, or was held and is not taken out. -/
theorem held_step {b : Option Bytes} (hc : ∀ v, c.held k = some v → b = some v) (op : Op)
    (h : (step c op).held k = some v) : latestStep k b op = some v := by
  cases op with
  | insert key value =>
    rcases held_insert h with ⟨rfl, rfl⟩ | ⟨hne, hold⟩
    · exact if_pos rfl
    · exact (if_neg hne).trans (hc v hold)
  | get key => exact hc v (congrFun (held_get c key) k ▸ h)
  | remove key =>
    obtain ⟨hne, hold⟩ := held_remove h
    exact (if_neg hne).trans (hc v hold)
  | clear =>
    rw [step, held_clear] at h
    cases h

theorem held_run (hn : 0 < n) (ops : List Op) (h : (run step (.new n hn) ops).held k = some v) :
    latest k ops = some v := by
  unfold latest
  induction ops using List.reverseRecOn generalizing v with
  | nil =>
    rw [run_nil, held_new] at h
    cases h
  | append_singleton ops op ih =>
    rw [run_append, run_cons, run_nil] at h ⊢
    exact held_step (fun v hv => ih hv) op h

/-- The cache as it should be: no more keys than its capacity, all of them counted, each in one slot that
holds it. -/
structure InOrder (n : ℕ) (c : ValueCache) : Prop where
  count : c.count = c.map.size
  bound : c.count ≤ n
  slot : ∀ k v s, c.map[k]? = some (v, s) → s < n ∧ c.slots s = some k ∧ ∀ s', c.slots s' = some k → s' = s

theorem Tidy.inOrder (h : Tidy c) : InOrder c.maxEntries c where
  count := h.count
  bound := h.count_le
  slot k v s hs := by
    refine ⟨(h.slot k v s hs).1, (h.slot k v s hs).2, fun s' hs' => ?_⟩
    obtain ⟨v', hv'⟩ := h.key s' k hs'
    rw [hs] at hv'
    exact (Prod.mk.inj (Option.some.inj hv')).2.symm

theorem maxEntries_step (c : ValueCache) (op : Op) : (step c op).maxEntries = c.maxEntries := by
  cases op with
  | insert key value => exact maxEntries_insert c key value
  | get key =>
    unfold step ValueCache.get
    dsimp only
    split <;> rfl
  | remove key => exact maxEntries_remove c key
  | clear => rfl

/-- **Runs of the cache.** Where every new key finds the slot under the hand free, the cache is in order; and
a get gives the last inserted value or nothing. -/
theorem cache_in_order (hn : 0 < n) {ops : List Op} (hfits : Along step Fits (.new n hn) ops) :
    InOrder (capacity n) (run step (.new n hn) ops) ∧
      ∀ k, ((run step (.new n hn) ops).get k).1 = none ∨ ((run step (.new n hn) ops).get k).1 = latest k ops := by
  have hcapacity : (run step (.new n hn) ops).maxEntries = capacity n :=
    (along_true (.new n hn) ops).invariant (I := fun c => c.maxEntries = capacity n)
      (fun c op h _ => (maxEntries_step c op).trans h) rfl
  refine ⟨hcapacity ▸ (hfits.invariant (fun c op h hop => tidy_step h op hop) (tidy_new n hn)).inOrder,
    fun k => ?_⟩
  rw [fst_get]
  cases hheld : (run step (.new n hn) ops).held k with
  | none => exact .inl rfl
  | some v => exact .inr (held_run hn ops hheld).symm

end

/-! ## Two keys -/

def oneAfterOther : List Op := [.insert 1 [7], .get 1, .remove 1, .insert 2 [8]]

theorem oneAfterOther_fits : Along step Fits (.new 1 Nat.one_pos) oneAfterOther :=
  ⟨.inr rfl, trivial, trivial, .inr (by decide), trivial⟩

theorem oneAfterOther_in_order : InOrder 1 (run step (.new 1 Nat.one_pos) oneAfterOther) ∧
    (((run step (.new 1 Nat.one_pos) oneAfterOther).get 2).1 = none ∨
      ((run step (.new 1 Nat.one_pos) oneAfterOther).get 2).1 = some [8]) := by
  obtain ⟨horder, hget⟩ := cache_in_order Nat.one_pos oneAfterOther_fits
  exact ⟨horder, hget 2⟩

/-- The second of two keys in a cache for one. -/
theorem full_cache_grows : ¬ InOrder 1 (run step (.new 1 Nat.one_pos) [.insert 1 [7], .insert 2 [8]]) := by
  intro h
  have hbound := h.bound
  revert hbound
  decide

end TruthLinked.DonaDb.ClockCache
