import TruthLinked.DonaDb.Fold

/-! # A block on one log

The calls of `put_versioned` and `del_versioned` that make up a block, the records they leave in the log
(`lays_appendAll`), and what the index says about a key once the block is folded. The fold marks a key
deleted if any record of the block deletes it, whichever came last: the entry reflects the last record
of every key iff no key is put again after it was deleted (`fold_reflects_last_iff`). -/

namespace TruthLinked.DonaDb.Block

open Core.Types Lib.Memory Lib.Table DonaDb.Log DonaDb.Fold

/-- A call that appends a record. -/
inductive Call where
  | put (key : Bytes32) (value : Bytes) (prevOff height : ℕ)
  | delete (key : Bytes32) (prevOff height : ℕ)
  deriving DecidableEq

/-- The call on a log. -/
def Call.run (log : CommutativeLog) : Call → Except DbError ℕ × CommutativeLog
  | .put key value prevOff height => log.putVersioned key value prevOff height
  | .delete key prevOff height => log.delVersioned key prevOff height

/-- The record that the call leaves at `off`. -/
def Call.record (off : ℕ) : Call → Record
  | .put key value prevOff height => ⟨off, false, prevOff % 2 ^ 64, height % 2 ^ 64, key, value⟩
  | .delete key prevOff height => ⟨off, true, prevOff % 2 ^ 64, height % 2 ^ 64, key, []⟩

/-- The log after the calls, and the records of those that returned `Ok`. -/
def appendAll (log : CommutativeLog) : List Call → CommutativeLog × List Record
  | [] => (log, [])
  | c :: cs =>
    match c.run log with
    | (.ok off, log') => ((appendAll log' cs).1, c.record off :: (appendAll log' cs).2)
    | (.error _, log') => appendAll log' cs

/-- One log is the other with records appended. -/
structure Extends (log log' : CommutativeLog) (rs : List Record) : Prop where
  lays : Lays log'.mmap log.writeOffset rs log'.writeOffset
  below : Agree log.mmap log'.mmap 0 log.writeOffset
  committed : log'.committedOffset = log.committedOffset
  capacity : log'.capacity = log.capacity

theorem Extends.refl (log : CommutativeLog) : Extends log log [] := ⟨rfl, .refl _ _ _, rfl, rfl⟩

theorem Extends.trans {log log' log'' : CommutativeLog} {rs rs' : List Record}
    (h : Extends log log' rs) (h' : Extends log' log'' rs') : Extends log log'' (rs ++ rs') where
  lays := (h.lays.congr (h'.below.mono (Nat.zero_le _) le_rfl)).append h'.lays
  below := h.below.trans (h'.below.mono le_rfl h.lays.le)
  committed := h'.committed.trans h.committed
  capacity := h'.capacity.trans h.capacity

theorem append_cases {log log' : CommutativeLog} {magic prevOff height : ℕ} {key : Bytes32}
    {value : Bytes} {res : Except DbError ℕ}
    (h : log.append magic prevOff height key value = (res, log')) :
    (res = .error .logFull ∧ log' = log ∧ log.capacity < log.writeOffset + (chdr + 32 + value.length)) ∨
    (res = .ok log.writeOffset ∧ log.writeOffset + (chdr + 32 + value.length) ≤ log.capacity ∧
      log' = { log with
        writeOffset := log.writeOffset + (chdr + 32 + value.length)
        mmap := write log.mmap log.writeOffset (encode magic prevOff height key value) }) := by
  unfold CommutativeLog.append at h
  dsimp only at h
  split at h
  case isTrue hfull =>
    obtain ⟨rfl, rfl⟩ := Prod.mk.inj h
    exact .inl ⟨rfl, rfl, hfull⟩
  case isFalse hroom =>
    obtain ⟨rfl, rfl⟩ := Prod.mk.inj h
    exact .inr ⟨rfl, by omega, rfl⟩

theorem extends_append {log : CommutativeLog} (deleted : Bool) {prevOff height : ℕ} {key : Bytes32}
    {value : Bytes} (hvalue : value.length < 2 ^ 32) (hdel : deleted = true → value = []) :
    Extends log { log with
        writeOffset := log.writeOffset + (chdr + 32 + value.length)
        mmap := write log.mmap log.writeOffset (encode (mark deleted) prevOff height key value) }
      [⟨log.writeOffset, deleted, prevOff % 2 ^ 64, height % 2 ^ 64, key, value⟩] where
  lays := ⟨decode_write deleted hvalue hdel, rfl⟩
  below := (agree_write_below le_rfl).symm
  committed := rfl
  capacity := rfl

theorem run_cases {log log' : CommutativeLog} {c : Call} {res : Except DbError ℕ}
    (h : c.run log = (res, log')) :
    (res = .error .logFull ∧ log' = log) ∨
    (res = .ok log.writeOffset ∧ log'.writeOffset ≤ log.capacity ∧
      ((c.record log.writeOffset).value.length < 2 ^ 32 →
        Extends log log' [c.record log.writeOffset])) := by
  cases c with
  | put key value prevOff height =>
    rcases append_cases h with ⟨rfl, rfl, -⟩ | ⟨rfl, hroom, rfl⟩
    · exact .inl ⟨rfl, rfl⟩
    · exact .inr ⟨rfl, hroom, fun hv => extends_append false hv (by simp)⟩
  | delete key prevOff height =>
    rcases append_cases h with ⟨rfl, rfl, -⟩ | ⟨rfl, hroom, rfl⟩
    · exact .inl ⟨rfl, rfl⟩
    · exact .inr ⟨rfl, hroom, fun hv => extends_append true hv (by simp)⟩

/-- **The calls leave their records in the log**, one after another. -/
theorem extends_appendAll {log : CommutativeLog} {cs : List Call}
    (hshort : ∀ r ∈ (appendAll log cs).2, r.value.length < 2 ^ 32) :
    Extends log (appendAll log cs).1 (appendAll log cs).2 := by
  induction cs generalizing log with
  | nil => exact .refl log
  | cons c cs ih =>
    rw [appendAll] at hshort ⊢
    cases hrun : c.run log with
    | mk res log' =>
      rcases run_cases hrun with ⟨rfl, rfl⟩ | ⟨rfl, -, hext⟩
      · rw [hrun] at hshort
        exact ih hshort
      · rw [hrun] at hshort
        obtain ⟨hc, hrest⟩ := List.forall_mem_cons.mp hshort
        exact (hext hc).trans (ih hrest)

/-! ## The last record of a key -/

/-- The entry of `key` reflects the last of the records `rs`, and without one it is as before. -/
def Reflects (blake3 : Bytes → Bytes32) (index index' : ShardIndex) (rs : List Record)
    (key : Bytes32) : Prop :=
  match lastOf Record.key key rs with
  | none => index'[key]? = index[key]?
  | some r => ∃ e, index'[key]? = some e ∧ e.deleted = r.deleted ∧
      (r.deleted = false → e.offset = r.offset ∧ e.valueHash = blake3 r.value)

/-- No key is put after it was deleted: the last record of a key with a tombstone is a tombstone. -/
def NoPutAfterDelete (rs : List Record) : Prop :=
  ∀ t ∈ rs, t.deleted = true → ∀ r ∈ lastOf Record.key t.key rs, r.deleted = true

instance (rs : List Record) : Decidable (NoPutAfterDelete rs) :=
  inferInstanceAs (Decidable (∀ t ∈ rs, t.deleted = true → ∀ r ∈ lastOf Record.key t.key rs,
    r.deleted = true))

theorem lastTombstone_eq_none {rs : List Record} {key : Bytes32} :
    lastTombstone rs key = none ↔ ∀ t ∈ rs, t.key = key → t.deleted = false := by
  rw [lastTombstone, lastOf_eq_none]
  constructor
  · intro h t ht hkey
    cases hd : t.deleted with
    | false => rfl
    | true => exact absurd hkey (h t (List.mem_filter.mpr ⟨ht, hd⟩))
  · intro h t ht hkey
    obtain ⟨hin, hd⟩ := List.mem_filter.mp ht
    rw [h t hin hkey] at hd
    cases hd

theorem NoPutAfterDelete.lastTombstone_eq_none {rs : List Record} (h : NoPutAfterDelete rs) {key : Bytes32}
    {r : Record} (hlast : lastOf Record.key key rs = some r) (hput : r.deleted = false) :
    lastTombstone rs key = none := by
  refine Block.lastTombstone_eq_none.mpr fun t ht hkey => ?_
  cases htomb : t.deleted with
  | false => rfl
  | true =>
    rw [← hkey] at hlast
    rw [h t ht htomb r hlast] at hput
    cases hput

theorem reflects_entryAfter_iff {blake3 : Bytes → Bytes32} {index index' : ShardIndex} {logId : ℕ}
    {rs : List Record} {key : Bytes32} (hindex : index'[key]? = entryAfter blake3 index logId rs key) :
    Reflects blake3 index index' rs key ↔
      ∀ r, lastOf Record.key key rs = some r → r.deleted = false → lastTombstone rs key = none := by
  unfold Reflects
  rw [hindex]
  cases hlast : lastOf Record.key key rs with
  | none =>
    have hnone := lastOf_eq_none.mp hlast
    have hput : lastPut rs key = none :=
      lastOf_eq_none.mpr fun r hr => hnone r (List.mem_filter.mp hr).1
    have htomb : lastTombstone rs key = none :=
      lastOf_eq_none.mpr fun r hr => hnone r (List.mem_filter.mp hr).1
    simp [entryAfter, hput, htomb]
  | some r =>
    cases hd : r.deleted with
    | true =>
      have htomb : lastTombstone rs key = some r := lastOf_filter hlast hd
      cases hput : lastPut rs key <;> simp [entryAfter, hput, htomb, hd]
    | false =>
      have hput : lastPut rs key = some r := lastOf_filter hlast (by rw [hd]; rfl)
      cases htomb : lastTombstone rs key <;> simp [entryAfter, hput, htomb, hd]

/-- **When the fold reflects the last record of every key**: iff no key is put after its deletion in the
same block. -/
theorem fold_reflects_last_iff (blake3 : Bytes → Bytes32) (log : CommutativeLog) (index : ShardIndex)
    (acc : Bytes32) (logId : ℕ) (calls : List Call) (hstart : log.writeOffset = log.committedOffset)
    (hshort : ∀ r ∈ (appendAll log calls).2, r.value.length < 2 ^ 32) :
    (∀ key, Reflects blake3 index
      (commitFoldUntil blake3 (appendAll log calls).1 index acc (appendAll log calls).1.writeOffset
        logId).index (appendAll log calls).2 key) ↔ NoPutAfterDelete (appendAll log calls).2 := by
  have hext := extends_appendAll hshort
  have hlays := hext.lays
  rw [hstart, ← hext.committed] at hlays
  have hindex := fun key => index_commitFold blake3 index acc logId hlays key
  constructor
  · intro h t ht htomb r hlast
    cases hput : r.deleted with
    | true => rfl
    | false =>
      have hnone := (reflects_entryAfter_iff (hindex t.key)).mp (h t.key) r hlast hput
      rw [lastTombstone_eq_none.mp hnone t ht rfl] at htomb
      cases htomb
  · intro h key
    refine (reflects_entryAfter_iff (hindex key)).mpr ?_
    exact fun r hlast hput => h.lastTombstone_eq_none hlast hput

def sampleHash (value : Bytes) : Bytes32 :=
  if value = [7] then 0x448bd8dd9624154a690f8e84dc52d6f633ba7cd545c4d3c9b4e0f6a2f6fa71f4
  else if value = [8] then 0x2ef3e0dda5293bda965d0adcedfc7d387244ac736a6014a720c1d63fa0ede02f
  else if value = [9] then 0x7219aa1099ced7445c5bf949990ff7d9f6b71a94b8ec02b3eb61fb175a66ba25
  else if value = ofBytes32 0 then 0x2ada83c1819a5372dae1238fc1ded123c8104fdaa15862aaee69428a1820fcda
  else if value = ofBytes32 0x448bd8dd9624154a690f8e84dc52d6f633ba7cd545c4d3c9b4e0f6a2f6fa71f5 then
    0xdb00986cc6d3b1f936eee7bb6884e69d230635bdac9c6e842d8848138597c271
  else if value = ofBytes32 0x6a783800330d2e90ff52845831aeabce41fed0a62fa4c76e9421209d561791d8 then
    0xe9002f0998b2da0aa75db184ccf4a168819f9d42a20451bfa56c7670411b3648
  else if value = ofBytes32 0x2ef3e0dda5293bda965d0adcedfc7d387244ac736a6014a720c1d63fa0ede02e then
    0xb709436e0b800a658be461dc3ee21cf6d8b700acd966732213267dd38c068416
  else 0xaf1349b9f5f9a1a6a0404dea36dcc9499bcb25c9adc112b7cc9a93cae41f3262

def emptyLog : CommutativeLog := .open (fun _ => 0) 1024

/-- Two puts of one key, and another that is put and then deleted. -/
def orderlyBlock : List Call := [.put 1 [7] 0 0, .put 2 [8] 0 0, .put 1 [9] 0 0, .delete 2 0 0]

example : NoPutAfterDelete (appendAll emptyLog orderlyBlock).2 := by decide +kernel

theorem fold_reflects_orderly :
    NoPutAfterDelete (appendAll emptyLog orderlyBlock).2 ∧
    ∀ key, Reflects sampleHash ∅ (commitFoldUntil sampleHash (appendAll emptyLog orderlyBlock).1 ∅ 0
      (appendAll emptyLog orderlyBlock).1.writeOffset 0).index (appendAll emptyLog orderlyBlock).2 key := by
  have hno : NoPutAfterDelete (appendAll emptyLog orderlyBlock).2 := by decide +kernel
  exact ⟨hno, (fold_reflects_last_iff sampleHash emptyLog ∅ 0 0 orderlyBlock (by decide +kernel)
    (by decide +kernel)).mpr hno⟩

/-- A key deleted and put again in one block ends up deleted. -/
theorem put_after_delete_lost : ¬ ∀ (blake3 : Bytes → Bytes32) (log : CommutativeLog)
    (index : ShardIndex) (acc : Bytes32) (logId : ℕ) (calls : List Call),
    log.writeOffset = log.committedOffset → ∀ key, Reflects blake3 index
      (commitFoldUntil blake3 (appendAll log calls).1 index acc (appendAll log calls).1.writeOffset
        logId).index (appendAll log calls).2 key := by
  intro h
  have hentry : (commitFoldUntil sampleHash (appendAll emptyLog [.delete 1 0 0, .put 1 [7] 0 0]).1 ∅ 0
      (appendAll emptyLog [.delete 1 0 0, .put 1 [7] 0 0]).1.writeOffset 0).index[(1 : Bytes32)]? =
        some ⟨1, 64, 1, 0, true, sampleHash [7]⟩ := by decide +kernel
  have hlast : lastOf Record.key 1 (appendAll emptyLog [.delete 1 0 0, .put 1 [7] 0 0]).2 =
      some ⟨64, false, 0, 0, 1, [7]⟩ := by decide +kernel
  have hreflects := h sampleHash emptyLog ∅ 0 0 [.delete 1 0 0, .put 1 [7] 0 0] (by decide +kernel) 1
  rw [Reflects, hlast] at hreflects
  obtain ⟨e, he, hdel, -⟩ := hreflects
  rw [hentry] at he
  obtain rfl := Option.some.inj he
  cases hdel

end TruthLinked.DonaDb.Block
