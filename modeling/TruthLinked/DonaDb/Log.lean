import TruthLinked.Core.Bytes
import TruthLinked.Lib.Memory

/-! # The append log of DonaDbX

`CommutativeLog` of `commutative.rs`: a memory-mapped file in which puts and deletions are records laid
one after another from byte 8 on; bytes 0..8 hold the committed offset for recovery. The scanners of the
crate all walk the same way from header to header, so they share `records` here. `Lays` says that a
stretch of the file consists of given records; it is what the scanners find again (`records_of_lays`). -/

namespace TruthLinked.DonaDb.Log

open Core.Types Core.Bytes Lib.Memory

/-- `DbError`; I/O failures are not modelled. -/
inductive DbError where
  | logFull
  | corrupt
  | notFound
  deriving DecidableEq

/-- `CMAG`: the mark of a put. -/
def cmag : ℕ := 0xC047C047

/-- `CTOMB`: the mark of a deletion. -/
def ctomb : ℕ := 0xDEADC047

/-- `CHDR`: mark, value length, previous offset and height. -/
def chdr : ℕ := 24

/-- A record as a scanner finds it at `offset`. -/
structure Record where
  offset : ℕ
  deleted : Bool
  prevOffset : ℕ
  height : ℕ
  key : Bytes32
  value : Bytes
  deriving DecidableEq

/-- The bytes a record takes. -/
def Record.total (r : Record) : ℕ := chdr + 32 + r.value.length

/-- The bytes of a record; the four bytes for the length keep what `as u32` keeps. -/
def encode (magic prevOff height : ℕ) (key : Bytes32) (value : Bytes) : Bytes :=
  leBytes 4 magic ++ leBytes 4 value.length ++ leBytes 8 prevOff ++ leBytes 8 height ++
    ofBytes32 key ++ value

/-- A `u32` of the file. -/
def u32At (m : ℕ → UInt8) (off : ℕ) : ℕ := leNat (read m off 4)

/-- A `u64` of the file. -/
def u64At (m : ℕ → UInt8) (off : ℕ) : ℕ := leNat (read m off 8)

/-- The record whose header starts at `off`, if one of the two marks is there. -/
def decode (m : ℕ → UInt8) (off : ℕ) : Option Record :=
  let found (deleted : Bool) (vlen : ℕ) : Record :=
    { offset := off, deleted, prevOffset := u64At m (off + 8), height := u64At m (off + 16),
      key := toBytes32 (read m (off + chdr) 32), value := read m (off + chdr + 32) vlen }
  if u32At m off = ctomb then some (found true 0)
  else if u32At m off = cmag then some (found false (u32At m (off + 4)))
  else none

/-- The walk from header to header: it ends at a header without a mark and at a record that reaches
beyond `stop`. -/
def scan (m : ℕ → UInt8) (stop : ℕ) : ℕ → ℕ → List Record
  | 0, _ => []
  | fuel + 1, cur =>
    match decode m cur with
    | none => []
    | some r => if cur + r.total ≤ stop then r :: scan m stop fuel (cur + r.total) else []

/-- The records between `cur` and `stop`. -/
def records (m : ℕ → UInt8) (cur stop : ℕ) : List Record := scan m stop (stop - cur) cur

/-- `CommutativeLog` between two calls, when no write is in flight. -/
structure CommutativeLog where
  mmap : ℕ → UInt8
  writeOffset : ℕ
  committedOffset : ℕ
  capacity : ℕ

/-- `CommutativeLog::open` on a file of the given contents. -/
def CommutativeLog.open (mmap : ℕ → UInt8) (size : ℕ) : CommutativeLog :=
  let persisted := u64At mmap 0
  let start := if 8 < persisted ∧ persisted ≤ size then persisted else 8
  { mmap, writeOffset := start, committedOffset := start, capacity := size }

/-- The common part of `put_versioned` and `del_versioned`: reserve and write, or give the reservation
back. -/
def CommutativeLog.append (log : CommutativeLog) (magic prevOff height : ℕ) (key : Bytes32)
    (value : Bytes) : Except DbError ℕ × CommutativeLog :=
  let total := chdr + 32 + value.length
  let off := log.writeOffset
  if log.capacity < off + total then (.error .logFull, log)
  else (.ok off, { log with
    writeOffset := off + total, mmap := write log.mmap off (encode magic prevOff height key value) })

/-- `CommutativeLog::put_versioned`. -/
def CommutativeLog.putVersioned (log : CommutativeLog) (key : Bytes32) (value : Bytes)
    (prevOff height : ℕ) : Except DbError ℕ × CommutativeLog :=
  log.append cmag prevOff height key value

/-- `CommutativeLog::del_versioned`. -/
def CommutativeLog.delVersioned (log : CommutativeLog) (key : Bytes32) (prevOff height : ℕ) :
    Except DbError ℕ × CommutativeLog :=
  log.append ctomb prevOff height key []

/-- `CommutativeLog::set_committed`. -/
def CommutativeLog.setCommitted (log : CommutativeLog) (off : ℕ) : CommutativeLog :=
  { log with committedOffset := off, writeOffset := max log.writeOffset off }

/-- `CommutativeLog::scan_unflushed`: the last put of the key above the committed offset, unless a
deletion comes after it. -/
def CommutativeLog.scanUnflushed (log : CommutativeLog) (key : Bytes32) : Option Bytes :=
  (records log.mmap log.committedOffset (min log.writeOffset log.capacity)).foldl
    (fun best r => if r.key = key then (if r.deleted then none else some r.value) else best) none

theorem open_empty (size : ℕ) : CommutativeLog.open (fun _ => 0) size =
    { mmap := fun _ => 0, writeOffset := 8, committedOffset := 8, capacity := size } := by
  have hzero : u64At (fun _ => 0) 0 = 0 := by decide
  unfold CommutativeLog.open
  dsimp only
  rw [hzero, if_neg (by omega)]

/-! ## Reading records back -/

variable {m m' : ℕ → UInt8} {off : ℕ} {r : Record}

theorem Record.total_pos (r : Record) : 0 < r.total := by
  unfold Record.total chdr
  omega

theorem length_encode (magic prevOff height : ℕ) (key : Bytes32) (value : Bytes) :
    (encode magic prevOff height key value).length = chdr + 32 + value.length := by
  simp [encode, chdr]
  omega

theorem decode_offset (h : decode m off = some r) : r.offset = off := by
  unfold decode at h
  dsimp only at h
  split at h
  · obtain rfl := Option.some.inj h
    rfl
  · split at h
    · obtain rfl := Option.some.inj h
      rfl
    · cases h

theorem decode_congr (h : decode m off = some r) (hm : Agree m m' off (off + r.total)) :
    decode m' off = some r := by
  have hpart : ∀ a n, off ≤ a → a + n ≤ off + r.total → read m' a n = read m a n :=
    fun a n ha hn => (read_congr (hm.mono ha hn)).symm
  have htotal : chdr + 32 ≤ r.total := by
    unfold Record.total
    omega
  unfold chdr at htotal hpart
  have hmagic : u32At m' off = u32At m off := by
    unfold u32At
    rw [hpart _ _ (by omega) (by omega)]
  have hlen : u32At m' (off + 4) = u32At m (off + 4) := by
    unfold u32At
    rw [hpart _ _ (by omega) (by omega)]
  have hprev : u64At m' (off + 8) = u64At m (off + 8) := by
    unfold u64At
    rw [hpart _ _ (by omega) (by omega)]
  have hheight : u64At m' (off + 16) = u64At m (off + 16) := by
    unfold u64At
    rw [hpart _ _ (by omega) (by omega)]
  have hkey : read m' (off + 24) 32 = read m (off + 24) 32 := hpart _ _ (by omega) (by omega)
  unfold decode chdr at h ⊢
  dsimp only at h ⊢
  rw [hmagic, hlen, hprev, hheight, hkey]
  split at h
  case isTrue hd =>
    rw [if_pos hd]
    exact h
  case isFalse hd =>
    rw [if_neg hd]
    split at h
    case isTrue hp =>
      rw [if_pos hp]
      have hvalue : read m' (off + 24 + 32) (u32At m (off + 4)) =
          read m (off + 24 + 32) (u32At m (off + 4)) := by
        obtain rfl := Option.some.inj h
        refine hpart _ _ (by omega) ?_
        simp only [Record.total, chdr, length_read]
        omega
      rw [hvalue]
      exact h
    case isFalse => cases h

/-- The mark of a record. -/
def mark (deleted : Bool) : ℕ := if deleted then ctomb else cmag

/-- **What is written is read back**, the length of the value being below `2 ^ 32`. -/
theorem decode_write (deleted : Bool) {prevOff height : ℕ} {key : Bytes32} {value : Bytes}
    (hvalue : value.length < 2 ^ 32) (hdel : deleted = true → value = []) :
    decode (write m off (encode (mark deleted) prevOff height key value)) off =
      some ⟨off, deleted, prevOff % 2 ^ 64, height % 2 ^ 64, key, value⟩ := by
  set m' := write m off (encode (mark deleted) prevOff height key value) with hm'
  -- the fields, each a part of the written list
  have hfield : ∀ pre mid post : Bytes, encode (mark deleted) prevOff height key value =
      pre ++ mid ++ post → read m' (off + pre.length) mid.length = mid := by
    intro pre mid post h
    rw [hm', h]
    exact read_write pre mid post
  have hmark : mark deleted < 256 ^ 4 := by cases deleted <;> decide
  have h0 : u32At m' off = mark deleted := by
    have := hfield [] (leBytes 4 (mark deleted)) (leBytes 4 value.length ++ leBytes 8 prevOff ++
      leBytes 8 height ++ ofBytes32 key ++ value) (by simp [encode])
    rw [length_leBytes, List.length_nil, Nat.add_zero] at this
    rw [u32At, this, leNat_leBytes hmark]
  have h4 : u32At m' (off + 4) = value.length := by
    have := hfield (leBytes 4 (mark deleted)) (leBytes 4 value.length) (leBytes 8 prevOff ++
      leBytes 8 height ++ ofBytes32 key ++ value) (by simp [encode])
    rw [length_leBytes, length_leBytes] at this
    rw [u32At, this, leNat_leBytes hvalue]
  have h8 : u64At m' (off + 8) = prevOff % 2 ^ 64 := by
    have := hfield (leBytes 4 (mark deleted) ++ leBytes 4 value.length) (leBytes 8 prevOff)
      (leBytes 8 height ++ ofBytes32 key ++ value) (by simp [encode])
    rw [List.length_append, length_leBytes, length_leBytes, length_leBytes] at this
    rw [u64At, this, leNat_leBytes_mod]
    rfl
  have h16 : u64At m' (off + 16) = height % 2 ^ 64 := by
    have := hfield (leBytes 4 (mark deleted) ++ leBytes 4 value.length ++ leBytes 8 prevOff)
      (leBytes 8 height) (ofBytes32 key ++ value) (by simp [encode])
    simp only [List.length_append, length_leBytes] at this
    rw [u64At, this, leNat_leBytes_mod]
    rfl
  have h24 : read m' (off + chdr) 32 = ofBytes32 key := by
    have := hfield (leBytes 4 (mark deleted) ++ leBytes 4 value.length ++ leBytes 8 prevOff ++
      leBytes 8 height) (ofBytes32 key) value (by simp [encode])
    simp only [List.length_append, length_leBytes, length_ofBytes32] at this
    exact this
  have h56 : read m' (off + chdr + 32) value.length = value := by
    have := hfield (leBytes 4 (mark deleted) ++ leBytes 4 value.length ++ leBytes 8 prevOff ++
      leBytes 8 height ++ ofBytes32 key) value [] (by simp [encode])
    simp only [List.length_append, length_leBytes, length_ofBytes32] at this
    exact this
  unfold decode
  dsimp only
  rw [h0, h4, h8, h16, h24, h56, toBytes32_ofBytes32]
  cases deleted with
  | true =>
    rw [hdel rfl]
    rfl
  | false => rfl

theorem decode_patch (p : ℕ) (h : decode m off = some r) :
    decode (write m (off + 8) (leBytes 8 p)) off = some { r with prevOffset := p % 2 ^ 64 } := by
  have hlen : (leBytes 8 p).length = 8 := length_leBytes 8 p
  have hbefore : ∀ n, n ≤ 8 → ∀ a, off ≤ a → a + n ≤ off + 8 →
      read (write m (off + 8) (leBytes 8 p)) a n = read m a n :=
    fun n _ a _ hn => read_congr (agree_write_below hn)
  have hafter : ∀ a n, off + 16 ≤ a → read (write m (off + 8) (leBytes 8 p)) a n = read m a n :=
    fun a n ha => read_congr (agree_write_above (by omega))
  have hpatched : u64At (write m (off + 8) (leBytes 8 p)) (off + 8) = p % 2 ^ 64 := by
    have := read_write (m := m) (a := off + 8) [] (leBytes 8 p) []
    rw [List.nil_append, List.append_nil, List.length_nil, Nat.add_zero, hlen] at this
    rw [u64At, this, leNat_leBytes_mod]
    rfl
  have hmagic : u32At (write m (off + 8) (leBytes 8 p)) off = u32At m off := by
    rw [u32At, hbefore 4 (by omega) off (by omega) (by omega), u32At]
  have hvlen : u32At (write m (off + 8) (leBytes 8 p)) (off + 4) = u32At m (off + 4) := by
    rw [u32At, hbefore 4 (by omega) (off + 4) (by omega) (by omega), u32At]
  have hheight : u64At (write m (off + 8) (leBytes 8 p)) (off + 16) = u64At m (off + 16) := by
    rw [u64At, hafter (off + 16) 8 (by omega), u64At]
  unfold decode chdr at h ⊢
  dsimp only at h ⊢
  rw [hmagic, hvlen, hpatched, hheight, hafter (off + 24) 32 (by omega),
    hafter (off + 24 + 32) 0 (by omega), hafter (off + 24 + 32) (u32At m (off + 4)) (by omega)]
  split at h
  case isTrue hd =>
    rw [if_pos hd]
    obtain rfl := Option.some.inj h
    rfl
  case isFalse hd =>
    rw [if_neg hd]
    split at h
    case isTrue hp =>
      rw [if_pos hp]
      obtain rfl := Option.some.inj h
      rfl
    case isFalse => cases h

/-! ## Stretches of records -/

/-- The stretch from `a` to `b` consists of the records `rs`. -/
def Lays (m : ℕ → UInt8) : ℕ → List Record → ℕ → Prop
  | a, [], b => a = b
  | a, r :: rs, b => decode m a = some r ∧ Lays m (a + r.total) rs b

variable {a b c : ℕ} {rs rs' : List Record}

theorem Lays.le (h : Lays m a rs b) : a ≤ b := by
  induction rs generalizing a with
  | nil => exact h.le
  | cons r rs ih =>
    have := ih h.2
    omega

theorem Lays.append (h : Lays m a rs b) (h' : Lays m b rs' c) : Lays m a (rs ++ rs') c := by
  induction rs generalizing a with
  | nil =>
    obtain rfl : a = b := h
    exact h'
  | cons r rs ih => exact ⟨h.1, ih h.2⟩

theorem Lays.congr (h : Lays m a rs b) (hm : Agree m m' a b) : Lays m' a rs b := by
  induction rs generalizing a with
  | nil => exact h
  | cons r rs ih =>
    have hle := h.2.le
    exact ⟨decode_congr h.1 (hm.mono le_rfl hle), ih h.2 (hm.mono (by omega) le_rfl)⟩

/-- **The walk finds the records of the stretch.** -/
theorem records_of_lays (h : Lays m a rs b) : records m a b = rs := by
  suffices ∀ fuel, b - a ≤ fuel → scan m b fuel a = rs from this _ le_rfl
  induction rs generalizing a with
  | nil =>
    intro fuel _
    obtain rfl : a = b := h
    cases fuel with
    | zero => rfl
    | succ fuel =>
      rw [scan]
      cases hd : decode m a with
      | none => rfl
      | some r =>
        have := r.total_pos
        exact if_neg (by omega)
  | cons r rs ih =>
    intro fuel hfuel
    have hle := h.2.le
    have hpos := r.total_pos
    cases fuel with
    | zero => omega
    | succ fuel =>
      rw [scan, h.1]
      dsimp only
      rw [if_pos hle, ih h.2 fuel (by omega)]

/-- What is not a record up to `stop` is none for another memory that agrees up to there. -/
theorem decode_beyond {stop : ℕ} (hm : Agree m m' off stop)
    (h : ∀ r, decode m off = some r → stop < off + r.total) {r : Record} (hr : decode m' off = some r) :
    stop < off + r.total := by
  by_contra hle
  have hback := decode_congr hr (hm.symm.mono le_rfl (by omega))
  exact hle (h r hback)

theorem records_congr (hm : Agree m m' a b) : records m a b = records m' a b := by
  unfold records
  generalize b - a = fuel
  induction fuel generalizing a with
  | zero => rfl
  | succ fuel ih =>
    have hnil : ∀ n : ℕ → UInt8, (∀ r, Log.decode n a = some r → b < a + r.total) →
        scan n b (fuel + 1) a = [] := by
      intro n hbeyond
      rw [scan]
      cases hd : Log.decode n a with
      | none => rfl
      | some r => exact if_neg (by have := hbeyond r hd; omega)
    by_cases h : ∃ r, Log.decode m a = some r ∧ a + r.total ≤ b
    · obtain ⟨r, hr, hle⟩ := h
      rw [scan, scan, hr, decode_congr hr (hm.mono le_rfl hle)]
      dsimp only
      rw [if_pos hle, if_pos hle, ih (hm.mono (by omega) le_rfl)]
    · push Not at h
      rw [hnil m h, hnil m' fun r hr => decode_beyond hm h hr]

/-- Every record of a stretch is read at its offset, and lies inside. -/
theorem Lays.decode (h : Lays m a rs b) (hr : r ∈ rs) :
    Log.decode m r.offset = some r ∧ a ≤ r.offset ∧ r.offset + r.total ≤ b := by
  induction rs generalizing a with
  | nil => cases hr
  | cons q rs ih =>
    have hle := h.2.le
    have hoff := decode_offset h.1
    rcases List.mem_cons.mp hr with rfl | hr
    · rw [hoff]
      exact ⟨h.1, le_rfl, hle⟩
    · obtain ⟨hd, ha, hb⟩ := ih h.2 hr
      exact ⟨hd, by omega, hb⟩

theorem Lays.pairwise (h : Lays m a rs b) : rs.Pairwise fun r r' => r.offset + r.total ≤ r'.offset := by
  induction rs generalizing a with
  | nil => exact .nil
  | cons r rs ih =>
    refine .cons ?_ (ih h.2)
    intro r' hr'
    have hoff := decode_offset h.1
    have := (h.2.decode hr').2.1
    omega

theorem lays_records (m : ℕ → UInt8) (a b : ℕ) : ∃ c, c ≤ max a b ∧ Lays m a (records m a b) c := by
  unfold records
  generalize b - a = fuel
  induction fuel generalizing a with
  | zero => exact ⟨a, le_max_left a b, rfl⟩
  | succ fuel ih =>
    rw [scan]
    split
    case h_1 => exact ⟨a, le_max_left a b, rfl⟩
    case h_2 r hr =>
      split
      case isTrue hle =>
        obtain ⟨c, hc, hlays⟩ := ih (a + r.total)
        exact ⟨c, by omega, hr, hlays⟩
      case isFalse => exact ⟨a, le_max_left a b, rfl⟩

theorem records_inside (hr : r ∈ records m a b) : a ≤ r.offset ∧ r.offset + r.total ≤ b := by
  obtain ⟨c, hc, hlays⟩ := lays_records m a b
  have hpos := r.total_pos
  obtain ⟨-, ha, hb⟩ := hlays.decode hr
  omega

end TruthLinked.DonaDb.Log
