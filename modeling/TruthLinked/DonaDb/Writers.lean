import TruthLinked.DonaDb.Block
import TruthLinked.DonaDb.Engine
import TruthLinked.Lib.Run

/-! # Writers and commits on one log

`put_versioned` and `commit_fold_until` step by step, for any number of threads. A writer reserves its
bytes by a `fetch_add`, gives them back if they do not fit, and otherwise counts itself in flight, writes
and counts itself out; a commit takes the write offset, waits under the commit lock until nobody is in
flight, folds what it finds and stores the offset. The reservation comes before the count, so a commit
may fold past a reservation that is not written yet; and while an overflow is not given back the write
offset is beyond every record. Apart from that every record is folded by exactly one commit
(`each_folded_once`). The accumulator a commit carries is the subject of `Queue`. -/

namespace TruthLinked.DonaDb.Writers

open Core.Types Core.Bytes Lib Lib.Memory Lib.Run DonaDb.Log DonaDb.Fold DonaDb.Block

/-! ## The steps -/

/-- The bytes of a call's record. -/
def bytesOf : Call → Bytes
  | .put key value prevOff height => encode cmag prevOff height key value
  | .delete key prevOff height => encode ctomb prevOff height key []

/-- The bytes that a call reserves. -/
def lengthOf (call : Call) : ℕ := (call.record 0).total

/-- How far a call has come. -/
inductive Phase where
  | reserved (off : ℕ)
  | overflowed
  | counted (off : ℕ)
  | written (off : ℕ)
  | ok (off : ℕ)
  | full
  deriving DecidableEq

/-- The bytes a call holds in the log. -/
def Phase.offset : Phase → Option ℕ
  | .reserved off | .counted off | .written off | .ok off => some off
  | .overflowed | .full => none

/-- How far a commit has come, with its snapshot of the write offset. -/
inductive CommitPhase where
  | snapped (endOff : ℕ)
  | locked (endOff : ℕ)
  | drained (endOff : ℕ)
  | folded (endOff : ℕ)
  | finished
  deriving DecidableEq

/-- The log with its `inflight` counter and commit lock, the calls and the commits in the order in which
they began, and the records of every fold. -/
structure Shared where
  log : CommutativeLog
  inflight : ℕ
  puts : List (Call × Phase)
  commits : List CommitPhase
  lock : Option ℕ
  index : ShardIndex
  folds : List (List Record)

/-- The steps of the writers and the commits, each thread under its number. -/
inductive Act where
  | reserve (call : Call)
  | giveBack (i : ℕ)
  | count (i : ℕ)
  | write (i : ℕ)
  | uncount (i : ℕ)
  | snapshot
  | enter (c : ℕ)
  | await (c : ℕ)
  | fold (c : ℕ)
  | store (c : ℕ)

/-- One step; a thread that has to wait, or is not at that step, does nothing. -/
def step (blake3 : Bytes → Bytes32) (s : Shared) : Act → Shared
  | .reserve call =>
    let off := s.log.writeOffset
    { s with
      log := { s.log with writeOffset := off + lengthOf call }
      puts := s.puts ++
        [(call, if s.log.capacity < off + lengthOf call then .overflowed else .reserved off)] }
  | .giveBack i =>
    match s.puts[i]? with
    | some (call, .overflowed) =>
      { s with
        log := { s.log with writeOffset := s.log.writeOffset - lengthOf call }
        puts := s.puts.set i (call, .full) }
    | _ => s
  | .count i =>
    match s.puts[i]? with
    | some (call, .reserved off) =>
      { s with inflight := s.inflight + 1, puts := s.puts.set i (call, .counted off) }
    | _ => s
  | .write i =>
    match s.puts[i]? with
    | some (call, .counted off) =>
      { s with
        log := { s.log with mmap := write s.log.mmap off (bytesOf call) }
        puts := s.puts.set i (call, .written off) }
    | _ => s
  | .uncount i =>
    match s.puts[i]? with
    | some (call, .written off) =>
      { s with inflight := s.inflight - 1, puts := s.puts.set i (call, .ok off) }
    | _ => s
  | .snapshot => { s with commits := s.commits ++ [.snapped s.log.writeOffset] }
  | .enter c =>
    match s.commits[c]?, s.lock with
    | some (.snapped endOff), none =>
      if endOff ≤ s.log.committedOffset then { s with commits := s.commits.set c .finished }
      else { s with lock := some c, commits := s.commits.set c (.locked endOff) }
    | _, _ => s
  | .await c =>
    match s.commits[c]? with
    | some (.locked endOff) =>
      if s.inflight = 0 then { s with commits := s.commits.set c (.drained endOff) } else s
    | _ => s
  | .fold c =>
    match s.commits[c]? with
    | some (.drained endOff) =>
      let rs := records s.log.mmap s.log.committedOffset endOff
      { s with
        log := { s.log with mmap := (latest blake3 rs).toList.foldl (patch s.index) s.log.mmap }
        index := applyBatches s.index 0
          (tombstoneBatch s.index (tombstones rs) ++ putBatch blake3 s.index rs)
        folds := s.folds ++ [rs]
        commits := s.commits.set c (.folded endOff) }
    | _ => s
  | .store c =>
    match s.commits[c]? with
    | some (.folded endOff) =>
      { s with
        log := { s.log with mmap := write s.log.mmap 0 (leBytes 8 endOff), committedOffset := endOff }
        lock := none
        commits := s.commits.set c .finished }
    | _ => s

/-- An opened file without threads. -/
def start (mmap : ℕ → UInt8) (size : ℕ) : Shared :=
  { log := .open mmap size, inflight := 0, puts := [], commits := [], lock := none, index := ∅, folds := [] }

/-- The call has returned. -/
def Returned : Phase → Prop
  | .ok _ | .full => True
  | _ => False

/-- A commit from its snapshot to its end. -/
def wholeCommit (c : ℕ) : List Act := [.snapshot, .enter c, .await c, .fold c, .store c]

/-- No reservation beyond the capacity waits to be given back. -/
def NoOverflow (s : Shared) : Prop := ∀ x ∈ s.puts, x.2 ≠ .overflowed

instance (s : Shared) : Decidable (NoOverflow s) :=
  inferInstanceAs (Decidable (∀ x ∈ s.puts, x.2 ≠ .overflowed))

instance : DecidablePred Returned
  | .ok _ | .full => isTrue trivial
  | .reserved _ | .overflowed | .counted _ | .written _ => isFalse id

/-- The call has reserved its bytes and not written them. -/
def Unwritten : Phase → Prop
  | .reserved _ | .counted _ => True
  | _ => False

/-- **The order that the counter does not enforce**: reservations that fit and snapshots are not made
while an overflow waits to be given back, and a fold meets no unwritten reservation below its snapshot.
Values are short enough for their length field. -/
def Orderly (s : Shared) : Act → Prop
  | .reserve call => (call.record 0).value.length < 2 ^ 32 ∧
      (s.log.writeOffset + lengthOf call ≤ s.log.capacity → NoOverflow s)
  | .snapshot => NoOverflow s
  | .fold c => ∀ endOff, s.commits[c]? = some (.drained endOff) →
      ∀ x ∈ s.puts, Unwritten x.2 → ∀ off, x.2.offset = some off → endOff ≤ off
  | _ => True

/-! ## Tilings -/

/-- The records lie one behind another from `a` to `b`. -/
def Tiles : ℕ → List Record → ℕ → Prop
  | a, [], b => a = b
  | a, r :: rs, b => r.offset = a ∧ Tiles (a + r.total) rs b

section
variable {a b c : ℕ} {rs rs' : List Record} {r : Record}

theorem Tiles.append (h : Tiles a rs b) (h' : Tiles b rs' c) : Tiles a (rs ++ rs') c := by
  induction rs generalizing a with
  | nil =>
    obtain rfl : a = b := h
    exact h'
  | cons r rs ih => exact ⟨h.1, ih h.2⟩

theorem Tiles.split (h : Tiles a (rs ++ rs') c) : ∃ b, Tiles a rs b ∧ Tiles b rs' c := by
  induction rs generalizing a with
  | nil => exact ⟨a, rfl, h⟩
  | cons r rs ih =>
    obtain ⟨b, hb, hb'⟩ := ih h.2
    exact ⟨b, ⟨h.1, hb⟩, hb'⟩

theorem Tiles.unique (h : Tiles a rs b) (h' : Tiles a rs c) : b = c := by
  induction rs generalizing a with
  | nil =>
    obtain rfl : a = b := h
    exact h'
  | cons r rs ih => exact ih h.2 h'.2

theorem Tiles.le (h : Tiles a rs b) : a ≤ b := by
  induction rs generalizing a with
  | nil => exact (show a = b from h).le
  | cons r rs ih =>
    have := ih h.2
    omega

theorem Tiles.mem (h : Tiles a rs b) (hr : r ∈ rs) : a ≤ r.offset ∧ r.offset + r.total ≤ b := by
  induction rs generalizing a with
  | nil => cases hr
  | cons q rs ih =>
    have hle := h.2.le
    have hoff := h.1
    rcases List.mem_cons.mp hr with rfl | hr
    · omega
    · have := ih h.2 hr
      omega

theorem Tiles.lays {m : ℕ → UInt8} (h : Tiles a rs b) (hm : ∀ r ∈ rs, decode m r.offset = some r) :
    Lays m a rs b := by
  induction rs generalizing a with
  | nil => exact h
  | cons r rs ih =>
    obtain ⟨hr, hrest⟩ := List.forall_mem_cons.mp hm
    refine ⟨?_, ih h.2 hrest⟩
    rw [← h.1]
    exact hr

theorem lays_of_records {m : ℕ → UInt8} (h : records m a b = rs) : ∃ c, Lays m a rs c := by
  obtain ⟨c, -, hlays⟩ := lays_records m a b
  rw [h] at hlays
  exact ⟨c, hlays⟩

/-- The longer of two beginnings of a tiling goes on where the shorter ends. -/
theorem Tiles.between {xs ys post post' : List Record} (hx : Tiles a xs b) (hy : Tiles a ys c) (hlt : b < c)
    (heq : xs ++ post = ys ++ post') : ∃ mid, ys = xs ++ mid ∧ Tiles b mid c := by
  rcases List.append_eq_append_iff.mp heq with ⟨mid, rfl, -⟩ | ⟨mid, rfl, -⟩
  · obtain ⟨b', hb', hmid⟩ := hy.split
    obtain rfl := hx.unique hb'
    exact ⟨mid, rfl, hmid⟩
  · obtain ⟨c', hc', hmid⟩ := hx.split
    obtain rfl := hy.unique hc'
    have := hmid.le
    omega

end

/-! ## What the calls hold -/

/-- The records of the reservations, in the order of the calls. -/
def slots (puts : List (Call × Phase)) : List Record := puts.filterMap fun x => x.2.offset.map x.1.record

/-- The bytes of a call that wait to be given back. -/
def overflow (x : Call × Phase) : ℕ := if x.2 = .overflowed then lengthOf x.1 else 0

/-- The bytes that wait to be given back. -/
def excess (puts : List (Call × Phase)) : ℕ := (puts.map overflow).sum

theorem total_record (call : Call) (off : ℕ) : (call.record off).total = lengthOf call := by
  cases call <;> rfl

theorem offset_record (call : Call) (off : ℕ) : (call.record off).offset = off := by
  cases call <;> rfl

theorem length_bytesOf (call : Call) : (bytesOf call).length = lengthOf call := by
  cases call with
  | put key value prevOff height => exact length_encode _ _ _ _ _
  | delete key prevOff height => exact length_encode _ _ _ _ _

theorem decode_bytesOf {call : Call} (h : (call.record 0).value.length < 2 ^ 32) (m : ℕ → UInt8) (off : ℕ) :
    decode (write m off (bytesOf call)) off = some (call.record off) := by
  cases call with
  | put key value prevOff height => exact decode_write false h (by simp)
  | delete key prevOff height => exact decode_write true h fun _ => rfl

section
variable {puts : List (Call × Phase)} {i : ℕ} {x y : Call × Phase}

theorem exists_split {α : Type*} {l : List α} {i : ℕ} {x : α} (h : l[i]? = some x) :
    ∃ pre post, l = pre ++ x :: post ∧ ∀ y, l.set i y = pre ++ y :: post := by
  obtain ⟨hi, rfl⟩ := List.getElem?_eq_some_iff.mp h
  refine ⟨l.take i, l.drop (i + 1), ?_, fun y => ?_⟩
  · rw [List.cons_getElem_drop_succ, List.take_append_drop]
  · rw [List.set_eq_take_append_cons_drop, if_pos hi]

theorem slots_set (h : puts[i]? = some x) (hoff : y.2.offset = x.2.offset) (hcall : y.1 = x.1) :
    slots (puts.set i y) = slots puts := by
  obtain ⟨pre, post, hputs, hset⟩ := exists_split h
  rw [hset, hputs]
  simp only [slots, List.filterMap_append, List.filterMap_cons, hoff, hcall]

theorem excess_set (h : puts[i]? = some x) (y : Call × Phase) :
    excess (puts.set i y) + overflow x = excess puts + overflow y := by
  obtain ⟨pre, post, hputs, hset⟩ := exists_split h
  rw [hset, hputs]
  simp only [excess, List.map_append, List.map_cons, List.sum_append, List.sum_cons]
  omega

theorem excess_eq_zero (h : ∀ x ∈ puts, x.2 ≠ .overflowed) : excess puts = 0 := by
  refine List.sum_eq_zero fun k hk => ?_
  obtain ⟨x, hx, rfl⟩ := List.mem_map.mp hk
  exact if_neg (h x hx)

theorem slots_apart {a b : ℕ} (h : Tiles a (slots puts) b) :
    puts.Pairwise fun x y => ∀ ox ∈ x.2.offset, ∀ oy ∈ y.2.offset, ox + lengthOf x.1 ≤ oy := by
  induction puts generalizing a with
  | nil => exact .nil
  | cons x puts ih =>
    unfold slots at h
    rw [List.filterMap_cons] at h
    cases hx : x.2.offset with
    | none =>
      rw [hx] at h
      refine .cons ?_ (ih h)
      intro y _ ox hox
      rw [hx] at hox
      cases hox
    | some ox =>
      rw [hx] at h
      obtain ⟨hoff, hrest⟩ := h
      rw [offset_record, total_record] at *
      refine .cons ?_ (ih hrest)
      intro y hy o ho oy hoy
      rw [hx] at ho
      obtain rfl := Option.some.inj ho
      have hin : y.1.record oy ∈ slots puts := by
        refine List.mem_filterMap.mpr ⟨y, hy, ?_⟩
        rw [hoy]
        rfl
      have := (hrest.mem hin).1
      rw [offset_record] at this
      omega

end

/-! ## The invariant -/

/-- The snapshot of a commit that is not finished. -/
def CommitPhase.endOff : CommitPhase → Option ℕ
  | .snapped e | .locked e | .drained e | .folded e => some e
  | .finished => none

/-- The commit has the lock. -/
def CommitPhase.Inside : CommitPhase → Prop
  | .locked _ | .drained _ | .folded _ => True
  | _ => False

/-- The commit is going to fold. -/
def CommitPhase.Pending (e : ℕ) (ph : CommitPhase) : Prop := ph = .locked e ∨ ph = .drained e

/-- From `a` on the reservations lie one behind another; what is folded is their beginning up to `f`,
behind `f` every written record is in its place, and snapshots fall between reservations. -/
structure Sound (a : ℕ) (s : Shared) (f : ℕ) : Prop where
  header : 8 ≤ a
  short : ∀ x ∈ s.puts, (x.1.record 0).value.length < 2 ^ 32
  tiles : ∃ base, Tiles a (slots s.puts) base ∧ base + excess s.puts = s.log.writeOffset
  folded : ∃ rest, slots s.puts = s.folds.flatten ++ rest
  reach : Tiles a s.folds.flatten f
  stored : ∀ x ∈ s.puts, ¬ Unwritten x.2 → ∀ off ∈ x.2.offset, f ≤ off →
    decode s.log.mmap off = some (x.1.record off)
  ends : ∀ ph ∈ s.commits, ∀ e ∈ ph.endOff, ∃ pre post, slots s.puts = pre ++ post ∧ Tiles a pre e
  lock : ∀ (c : ℕ) ph, s.commits[c]? = some ph → ph.Inside → s.lock = some c
  pending : ∀ ph ∈ s.commits, ∀ e, ph.Pending e → s.log.committedOffset < e
  after : ∀ c e : ℕ, s.commits[c]? = some (CommitPhase.folded e) → f = e
  before : (∀ c e : ℕ, s.commits[c]? ≠ some (CommitPhase.folded e)) → f = s.log.committedOffset

section
variable {blake3 : Bytes → Bytes32} {a f : ℕ} {s : Shared}

theorem Sound.setPut (h : Sound a s f) {i : ℕ} {call : Call} {ph : Phase} (ph' : Phase)
    (log : CommutativeLog) (inflight : ℕ) (hi : s.puts[i]? = some (call, ph)) (hoff : ph'.offset = ph.offset)
    (hcommitted : log.committedOffset = s.log.committedOffset)
    (hwrite : log.writeOffset + overflow (call, ph) = s.log.writeOffset + overflow (call, ph'))
    (hothers : ∀ x ∈ s.puts, ¬ Unwritten x.2 → ∀ off ∈ x.2.offset, f ≤ off →
      decode log.mmap off = some (x.1.record off))
    (hself : ¬ Unwritten ph' → ∀ off ∈ ph'.offset, f ≤ off → decode log.mmap off = some (call.record off)) :
    Sound a { s with log, inflight, puts := s.puts.set i (call, ph') } f := by
  have hslots : slots (s.puts.set i (call, ph')) = slots s.puts := slots_set hi hoff rfl
  obtain ⟨base, htiles, hbase⟩ := h.tiles
  have hexcess := excess_set hi (call, ph')
  refine ⟨h.header, ?_, ⟨base, ?_, ?_⟩, ?_, h.reach, ?_, ?_, h.lock, ?_, h.after, ?_⟩
  · intro x hx
    rcases List.mem_or_eq_of_mem_set hx with hx | rfl
    · exact h.short x hx
    · exact h.short (call, ph) (List.mem_of_getElem? hi)
  · rw [hslots]
    exact htiles
  · dsimp only
    omega
  · rw [hslots]
    exact h.folded
  · intro x hx hwritten off hx' hle
    rcases List.mem_or_eq_of_mem_set hx with hx | rfl
    · exact hothers x hx hwritten off hx' hle
    · exact hself hwritten off hx' hle
  · rw [hslots]
    exact h.ends
  · dsimp only
    rw [hcommitted]
    exact h.pending
  · dsimp only
    rw [hcommitted]
    exact h.before

theorem Sound.giveBack (h : Sound a s f) {i : ℕ} {call : Call} (hi : s.puts[i]? = some (call, .overflowed)) :
    Sound a { s with
      log := { s.log with writeOffset := s.log.writeOffset - lengthOf call }
      puts := s.puts.set i (call, .full) } f := by
  obtain ⟨base, -, hbase⟩ := h.tiles
  have hle : lengthOf call ≤ excess s.puts := by
    have hexcess := excess_set hi (call, .full)
    have hone : overflow (call, .overflowed) = lengthOf call := if_pos rfl
    have hzero : overflow (call, .full) = 0 := if_neg (by simp)
    omega
  refine h.setPut .full _ _ hi rfl rfl ?_ h.stored fun _ off hoff => by cases hoff
  have hone : overflow (call, .overflowed) = lengthOf call := if_pos rfl
  have hzero : overflow (call, .full) = 0 := if_neg (by simp)
  dsimp only
  omega

theorem Sound.count (h : Sound a s f) {i off : ℕ} {call : Call}
    (hi : s.puts[i]? = some (call, .reserved off)) :
    Sound a { s with inflight := s.inflight + 1, puts := s.puts.set i (call, .counted off) } f :=
  h.setPut (.counted off) _ _ hi rfl rfl rfl h.stored fun hnot => absurd trivial hnot

theorem Sound.uncount (h : Sound a s f) {i off : ℕ} {call : Call}
    (hi : s.puts[i]? = some (call, .written off)) :
    Sound a { s with inflight := s.inflight - 1, puts := s.puts.set i (call, .ok off) } f := by
  refine h.setPut (.ok off) _ _ hi rfl rfl rfl h.stored fun _ o ho hle => ?_
  exact h.stored _ (List.mem_of_getElem? hi) id o ho hle

/-- **A record is written without touching the others.** -/
theorem Sound.write (h : Sound a s f) {i off : ℕ} {call : Call}
    (hi : s.puts[i]? = some (call, .counted off)) :
    Sound a { s with
      log := { s.log with mmap := Memory.write s.log.mmap off (bytesOf call) }
      puts := s.puts.set i (call, .written off) } f := by
  obtain ⟨base, htiles, -⟩ := h.tiles
  have hapart := slots_apart htiles
  refine h.setPut (.written off) _ _ hi rfl rfl rfl ?_ ?_
  · intro x hx hwritten o ho hle
    have hx' := h.stored x hx hwritten o ho hle
    obtain ⟨j, hj⟩ := List.mem_iff_getElem?.mp hx
    obtain ⟨hjlt, hjx⟩ := List.getElem?_eq_some_iff.mp hj
    obtain ⟨hilt, hix⟩ := List.getElem?_eq_some_iff.mp hi
    have hpair := List.pairwise_iff_getElem.mp hapart
    refine decode_congr hx' ?_
    rw [total_record]
    rcases Nat.lt_trichotomy i j with hij | rfl | hij
    · have := hpair i j hilt hjlt hij
      rw [hix, hjx] at this
      have hle' := this off rfl o ho
      exact (agree_write_above (by rw [length_bytesOf]; exact hle')).symm
    · rw [hi] at hj
      obtain rfl := Option.some.inj hj
      exact absurd trivial hwritten
    · have := hpair j i hjlt hilt hij
      rw [hix, hjx] at this
      exact (agree_write_below (this o ho off rfl)).symm
  · intro _ o ho _
    obtain rfl := Option.some.inj ho
    exact decode_bytesOf (h.short _ (List.mem_of_getElem? hi)) _ _

theorem Sound.reserve (h : Sound a s f) {call : Call} (hop : Orderly s (.reserve call)) :
    Sound a (step blake3 s (.reserve call)) f := by
  obtain ⟨base, htiles, hbase⟩ := h.tiles
  have hshort : ∀ ph, ∀ x ∈ s.puts ++ [(call, ph)], (x.1.record 0).value.length < 2 ^ 32 := by
    intro ph x hx
    rcases List.mem_append.mp hx with hx | hx
    · exact h.short x hx
    · obtain rfl := List.mem_singleton.mp hx
      exact hop.1
  have hstored : ∀ ph, (Unwritten ph ∨ ph.offset = none) → ∀ x ∈ s.puts ++ [(call, ph)], ¬ Unwritten x.2 →
      ∀ off ∈ x.2.offset, f ≤ off → decode s.log.mmap off = some (x.1.record off) := by
    intro ph hph x hx hwritten off hoff hle
    rcases List.mem_append.mp hx with hx | hx
    · exact h.stored x hx hwritten off hoff hle
    · obtain rfl := List.mem_singleton.mp hx
      rcases hph with hph | hph
      · exact absurd hph hwritten
      · rw [hph] at hoff
        cases hoff
  unfold Writers.step
  dsimp only
  split
  case isTrue hfull =>
    have hslots : slots (s.puts ++ [(call, .overflowed)]) = slots s.puts := by
      simp [slots, Phase.offset]
    have hexcess : excess (s.puts ++ [(call, .overflowed)]) = excess s.puts + lengthOf call := by
      simp [excess, overflow]
    refine ⟨h.header, hshort _, ⟨base, ?_, ?_⟩, ?_, h.reach, hstored _ (.inr rfl), ?_, h.lock, h.pending,
      h.after, h.before⟩
    · rw [hslots]
      exact htiles
    · dsimp only
      omega
    · rw [hslots]
      exact h.folded
    · rw [hslots]
      exact h.ends
  case isFalse hroom =>
    have hnone := hop.2 (by omega)
    have hzero : excess s.puts = 0 := excess_eq_zero hnone
    obtain rfl : base = s.log.writeOffset := by omega
    have hslots : slots (s.puts ++ [(call, .reserved s.log.writeOffset)]) =
        slots s.puts ++ [call.record s.log.writeOffset] := by
      simp [slots, Phase.offset]
    have hexcess : excess (s.puts ++ [(call, .reserved s.log.writeOffset)]) = 0 := by
      simp [excess, overflow] at hzero ⊢
      exact hzero
    refine ⟨h.header, hshort _, ⟨s.log.writeOffset + lengthOf call, ?_, ?_⟩, ?_, h.reach,
      hstored _ (.inl trivial), ?_, h.lock, h.pending, h.after, h.before⟩
    · rw [hslots]
      refine htiles.append ⟨offset_record _ _, ?_⟩
      rw [total_record]
      rfl
    · dsimp only
      omega
    · obtain ⟨rest, hrest⟩ := h.folded
      refine ⟨rest ++ [call.record s.log.writeOffset], ?_⟩
      rw [hslots, hrest, List.append_assoc]
    · intro ph hph e he
      obtain ⟨pre, post, hpre, htiles⟩ := h.ends ph hph e he
      refine ⟨pre, post ++ [call.record s.log.writeOffset], ?_, htiles⟩
      rw [hslots, hpre, List.append_assoc]

theorem getElem?_set_cases {α : Type*} {l : List α} {c c' : ℕ} {x y : α} (h : (l.set c x)[c']? = some y) :
    (c' = c ∧ y = x) ∨ (c' ≠ c ∧ l[c']? = some y) := by
  rw [List.getElem?_set] at h
  split at h
  case isTrue heq =>
    split at h
    · exact .inl ⟨heq.symm, (Option.some.inj h).symm⟩
    · cases h
  case isFalse hne => exact .inr ⟨fun heq => hne heq.symm, h⟩

theorem Sound.snapshot (h : Sound a s f) (hop : NoOverflow s) :
    Sound a { s with commits := s.commits ++ [.snapped s.log.writeOffset] } f := by
  obtain ⟨base, htiles, hbase⟩ := h.tiles
  have hzero : excess s.puts = 0 := excess_eq_zero hop
  obtain rfl : base = s.log.writeOffset := by omega
  have hcases : ∀ {c : ℕ} {ph}, (s.commits ++ [CommitPhase.snapped s.log.writeOffset])[c]? = some ph →
      s.commits[c]? = some ph ∨ ph = .snapped s.log.writeOffset := by
    intro c ph hc
    rw [List.getElem?_append] at hc
    split at hc
    · exact .inl hc
    · exact .inr (List.mem_singleton.mp (List.mem_of_getElem? hc))
  refine ⟨h.header, h.short, ⟨_, htiles, hbase⟩, h.folded, h.reach, h.stored, ?_, ?_, ?_, ?_, ?_⟩
  · intro ph hph e he
    rcases List.mem_append.mp hph with hph | hph
    · exact h.ends ph hph e he
    · obtain rfl := List.mem_singleton.mp hph
      obtain rfl := Option.some.inj he
      exact ⟨slots s.puts, [], (List.append_nil _).symm, htiles⟩
  · intro c ph hc hinside
    rcases hcases hc with hc | rfl
    · exact h.lock c ph hc hinside
    · cases hinside
  · intro ph hph e he
    rcases List.mem_append.mp hph with hph | hph
    · exact h.pending ph hph e he
    · obtain rfl := List.mem_singleton.mp hph
      rcases he with he | he <;> cases he
  · intro c e hc
    rcases hcases hc with hc | hc
    · exact h.after c e hc
    · cases hc
  · intro hnone
    refine h.before fun c e hc => hnone c e ?_
    obtain ⟨hlt, -⟩ := List.getElem?_eq_some_iff.mp hc
    dsimp only
    rw [List.getElem?_append_left hlt]
    exact hc

theorem Sound.setCommit (h : Sound a s f) {c : ℕ} {ph : CommitPhase} (ph' : CommitPhase) (lock : Option ℕ)
    (hc : s.commits[c]? = some ph) (hend : ∀ e ∈ ph'.endOff, e ∈ ph.endOff)
    (hlock : ∀ c' p, (s.commits.set c ph')[c']? = some p → p.Inside → lock = some c')
    (hpending : ∀ e, ph'.Pending e → s.log.committedOffset < e) (hfolded : ∀ e, ph ≠ .folded e)
    (hfolded' : ∀ e, ph' ≠ .folded e) : Sound a { s with lock, commits := s.commits.set c ph' } f := by
  refine ⟨h.header, h.short, h.tiles, h.folded, h.reach, h.stored, ?_, hlock, ?_, ?_, ?_⟩
  · intro p hp e he
    rcases List.mem_or_eq_of_mem_set hp with hp | rfl
    · exact h.ends p hp e he
    · exact h.ends ph (List.mem_of_getElem? hc) e (hend e he)
  · intro p hp e he
    rcases List.mem_or_eq_of_mem_set hp with hp | rfl
    · exact h.pending p hp e he
    · exact hpending e he
  · intro c' e hc'
    rcases getElem?_set_cases hc' with ⟨-, heq⟩ | ⟨-, hc'⟩
    · exact absurd heq.symm (hfolded' e)
    · exact h.after c' e hc'
  · intro hnone
    refine h.before fun c' e hc' => hnone c' e ?_
    have hne : c ≠ c' := by
      rintro rfl
      rw [hc] at hc'
      exact hfolded e (Option.some.inj hc')
    dsimp only
    rw [List.getElem?_set_ne hne]
    exact hc'

theorem Sound.enter (blake3 : Bytes → Bytes32) (h : Sound a s f) {c e : ℕ}
    (hc : s.commits[c]? = some (.snapped e))
    (hlock : s.lock = none) : Sound a (step blake3 s (.enter c)) f := by
  have hothers : ∀ ph', ∀ c' p, (s.commits.set c ph')[c']? = some p → p.Inside → c' = c ∧ p = ph' := by
    intro ph' c' p hp hinside
    rcases getElem?_set_cases hp with heq | ⟨-, hp⟩
    · exact heq
    · have := h.lock c' p hp hinside
      rw [hlock] at this
      cases this
  rw [Writers.step, hc, hlock]
  dsimp only
  split
  case isTrue =>
    refine h.setCommit .finished none hc (fun _ he => by cases he) ?_ ?_ (fun _ => by simp) fun _ => by simp
    · intro c' p hp hinside
      obtain ⟨-, rfl⟩ := hothers _ c' p hp hinside
      cases hinside
    · rintro e (he | he) <;> cases he
  case isFalse hlt =>
    refine h.setCommit (.locked e) (some c) hc (fun _ he => he) ?_ ?_ (fun _ => by simp) fun _ => by simp
    · intro c' p hp hinside
      rw [(hothers _ c' p hp hinside).1]
    · rintro e' (he | he)
      · obtain rfl := CommitPhase.locked.inj he
        omega
      · cases he

theorem Sound.await (h : Sound a s f) {c e : ℕ} (hc : s.commits[c]? = some (.locked e)) :
    Sound a { s with commits := s.commits.set c (.drained e) } f := by
  refine h.setCommit (.drained e) s.lock hc (fun _ he => he) ?_ ?_ (fun _ => by simp) fun _ => by simp
  · intro c' p hp hinside
    rcases getElem?_set_cases hp with ⟨rfl, -⟩ | ⟨-, hp⟩
    · exact h.lock c' _ hc trivial
    · exact h.lock c' p hp hinside
  · rintro e' (he | he)
    · cases he
    · obtain rfl := CommitPhase.drained.inj he
      exact h.pending _ (List.mem_of_getElem? hc) e (.inl rfl)

theorem agree_patches_behind {index : ShardIndex} {m : ℕ → UInt8} {l : List (Bytes32 × Bytes32 × ℕ)} {b d : ℕ}
    (hl : ∀ p ∈ l, p.2.2 + 16 ≤ b) : Agree (l.foldl (patch index) m) m b d := by
  induction l generalizing m with
  | nil => exact .refl _ _ _
  | cons p l ih =>
    obtain ⟨hp, hrest⟩ := List.forall_mem_cons.mp hl
    have hlen : (leBytes 8 (oldOffset index p.1)).length = 8 := length_leBytes 8 _
    rw [List.foldl_cons]
    refine (ih hrest).trans ?_
    unfold patch
    split
    · exact agree_write_above (by omega)
    · exact .refl _ _ _

theorem mem_slots {puts : List (Call × Phase)} {r : Record} (h : r ∈ slots puts) :
    ∃ x ∈ puts, x.2.offset = some r.offset ∧ r = x.1.record r.offset := by
  obtain ⟨x, hx, hr⟩ := List.mem_filterMap.mp h
  obtain ⟨off, hoff, rfl⟩ := Option.map_eq_some_iff.mp hr
  rw [offset_record]
  exact ⟨x, hx, hoff, rfl⟩

theorem Sound.alone (h : Sound a s f) {c c' : ℕ} {ph ph' : CommitPhase} (hc : s.commits[c]? = some ph)
    (hin : ph.Inside) (hc' : s.commits[c']? = some ph') (hin' : ph'.Inside) : c' = c := by
  have h1 := h.lock c ph hc hin
  have h2 := h.lock c' ph' hc' hin'
  exact Option.some.inj (h2.symm.trans h1)

/-- **A fold finds the reservations up to its snapshot**, those of earlier folds apart. -/
theorem Sound.found (h : Sound a s f) {c e : ℕ} (hc : s.commits[c]? = some (.drained e))
    (hop : Orderly s (.fold c)) : ∃ mid post, slots s.puts = s.folds.flatten ++ mid ++ post ∧
      Tiles f mid e ∧ records s.log.mmap s.log.committedOffset e = mid := by
  have hf : f = s.log.committedOffset := by
    refine h.before fun c' e' hc' => ?_
    obtain rfl := h.alone hc trivial hc' trivial
    rw [hc] at hc'
    cases hc'
  have hlt := h.pending _ (List.mem_of_getElem? hc) e (.inr rfl)
  obtain ⟨pre, post, hpre, htiles⟩ := h.ends _ (List.mem_of_getElem? hc) e rfl
  obtain ⟨rest, hrest⟩ := h.folded
  obtain ⟨mid, rfl, hmid⟩ := h.reach.between htiles (by omega) (hrest.symm.trans hpre)
  refine ⟨mid, post, hpre, hmid, ?_⟩
  rw [← hf]
  refine records_of_lays (hmid.lays fun r hr => ?_)
  have hin : r ∈ slots s.puts := by
    rw [hpre]
    exact List.mem_append_left _ (List.mem_append_right _ hr)
  obtain ⟨x, hx, hoff, hrecord⟩ := mem_slots hin
  obtain ⟨hge, hend⟩ := hmid.mem hr
  have hpos := r.total_pos
  have hwritten : ¬ Unwritten x.2 := by
    intro hun
    have := hop e hc x hx hun r.offset hoff
    omega
  have hdecode := h.stored x hx hwritten r.offset hoff hge
  rwa [← hrecord] at hdecode

theorem Sound.fold (blake3 : Bytes → Bytes32) (h : Sound a s f) {c e : ℕ} (hc : s.commits[c]? = some (.drained e))
    (hop : Orderly s (.fold c)) : Sound a (step blake3 s (.fold c)) e := by
  obtain ⟨mid, post, hslots, hmid, hrecords⟩ := h.found hc hop
  have hlt : c < s.commits.length := (List.getElem?_eq_some_iff.mp hc).1
  rw [Writers.step, hc]
  dsimp only
  rw [hrecords]
  have hflatten : (s.folds ++ [mid]).flatten = s.folds.flatten ++ mid := by simp
  refine ⟨h.header, h.short, h.tiles, ⟨post, ?_⟩, ?_, ?_, ?_, ?_, ?_, ?_, ?_⟩
  · rw [hflatten]
    exact hslots
  · rw [hflatten]
    exact h.reach.append hmid
  · intro x hx hwritten off hoff hle
    have hbefore := hmid.le
    refine decode_congr (h.stored x hx hwritten off hoff (by omega)) ?_
    refine (agree_patches_behind fun p hp => ?_).symm
    obtain ⟨_, hlays⟩ := lays_of_records hrecords
    obtain ⟨r, hr, hpr⟩ := mem_latest (ascending_of_lays hlays) hp
    have hend := (hmid.mem (lastPut_mem hr).1).2
    rw [hpr]
    unfold Record.total chdr at hend
    dsimp only
    omega
  · intro ph hph e' he'
    rcases List.mem_or_eq_of_mem_set hph with hph | rfl
    · exact h.ends ph hph e' he'
    · exact h.ends _ (List.mem_of_getElem? hc) e' he'
  · intro c' ph hc' hinside
    rcases getElem?_set_cases hc' with ⟨rfl, -⟩ | ⟨-, hc'⟩
    · exact h.lock c' _ hc trivial
    · exact h.lock c' ph hc' hinside
  · intro ph hph e' he'
    rcases List.mem_or_eq_of_mem_set hph with hph | rfl
    · exact h.pending ph hph e' he'
    · rcases he' with he' | he' <;> cases he'
  · intro c' e' hc'
    rcases getElem?_set_cases hc' with ⟨-, heq⟩ | ⟨hne, hc'⟩
    · exact (CommitPhase.folded.inj heq).symm
    · exact absurd (h.alone hc trivial hc' trivial) hne
  · intro hnone
    exact absurd (List.getElem?_set_self hlt) (hnone c e)

theorem Sound.store (blake3 : Bytes → Bytes32) (h : Sound a s f) {c e : ℕ}
    (hc : s.commits[c]? = some (.folded e)) :
    Sound a (step blake3 s (.store c)) e := by
  obtain rfl := h.after c e hc
  have hother : ∀ (c' : ℕ) ph, (s.commits.set c .finished)[c']? = some ph → ¬ ph.Inside := by
    intro c' ph hc' hinside
    rcases getElem?_set_cases hc' with ⟨-, rfl⟩ | ⟨hne, hc'⟩
    · exact hinside
    · exact hne (h.alone hc trivial hc' hinside)
  rw [Writers.step, hc]
  dsimp only
  refine ⟨h.header, h.short, h.tiles, h.folded, h.reach, ?_, ?_, ?_, ?_, ?_, fun _ => rfl⟩
  · intro x hx hwritten off hoff hle
    have hlen : (leBytes 8 f).length = 8 := length_leBytes 8 _
    have hheader := h.header
    have hreach := h.reach.le
    exact decode_congr (h.stored x hx hwritten off hoff hle)
      (agree_write_above (c := 0) (l := leBytes 8 f) (by omega)).symm
  · intro ph hph e' he'
    rcases List.mem_or_eq_of_mem_set hph with hph | rfl
    · exact h.ends ph hph e' he'
    · cases he'
  · exact fun c' ph hc' hinside => absurd hinside (hother c' ph hc')
  · intro ph hph e' he'
    obtain ⟨c', hc'⟩ := List.mem_iff_getElem?.mp hph
    refine absurd ?_ (hother c' ph hc')
    rcases he' with rfl | rfl <;> trivial
  · exact fun c' e' hc' => absurd trivial (hother c' _ hc')

theorem Sound.step (h : Sound a s f) {act : Act} (hop : Orderly s act) :
    ∃ f', Sound a (step blake3 s act) f' := by
  cases act with
  | reserve call => exact ⟨f, h.reserve hop⟩
  | giveBack i =>
    rw [Writers.step]
    split
    case h_1 call hi => exact ⟨f, h.giveBack hi⟩
    case h_2 => exact ⟨f, h⟩
  | count i =>
    rw [Writers.step]
    split
    case h_1 call off hi => exact ⟨f, h.count hi⟩
    case h_2 => exact ⟨f, h⟩
  | write i =>
    rw [Writers.step]
    split
    case h_1 call off hi => exact ⟨f, h.write hi⟩
    case h_2 => exact ⟨f, h⟩
  | uncount i =>
    rw [Writers.step]
    split
    case h_1 call off hi => exact ⟨f, h.uncount hi⟩
    case h_2 => exact ⟨f, h⟩
  | snapshot => exact ⟨f, h.snapshot hop⟩
  | enter c =>
    by_cases hc : ∃ e, s.commits[c]? = some (.snapped e) ∧ s.lock = none
    · obtain ⟨e, hc, hlock⟩ := hc
      exact ⟨f, h.enter blake3 hc hlock⟩
    · rw [Writers.step]
      split
      case h_1 e hc' hlock => exact absurd ⟨e, hc', hlock⟩ hc
      case h_2 => exact ⟨f, h⟩
  | await c =>
    rw [Writers.step]
    split
    case h_1 e hc =>
      split
      · exact ⟨f, h.await hc⟩
      · exact ⟨f, h⟩
    case h_2 => exact ⟨f, h⟩
  | fold c =>
    by_cases hc : ∃ e, s.commits[c]? = some (.drained e)
    · obtain ⟨e, hc⟩ := hc
      exact ⟨e, h.fold blake3 hc hop⟩
    · rw [Writers.step]
      split
      case h_1 e hc' => exact absurd ⟨e, hc'⟩ hc
      case h_2 => exact ⟨f, h⟩
  | store c =>
    by_cases hc : ∃ e, s.commits[c]? = some (.folded e)
    · obtain ⟨e, hc⟩ := hc
      exact ⟨e, h.store blake3 hc⟩
    · rw [Writers.step]
      split
      case h_1 e hc' => exact absurd ⟨e, hc'⟩ hc
      case h_2 => exact ⟨f, h⟩

theorem open_eq (mmap : ℕ → UInt8) (size : ℕ) : ∃ off, 8 ≤ off ∧ CommutativeLog.open mmap size =
    { mmap, writeOffset := off, committedOffset := off, capacity := size } := by
  refine ⟨if 8 < u64At mmap 0 ∧ u64At mmap 0 ≤ size then u64At mmap 0 else 8, ?_, rfl⟩
  split <;> omega

theorem sound_start (mmap : ℕ → UInt8) (size : ℕ) : ∃ a, Sound a (start mmap size) a := by
  obtain ⟨off, hheader, hopen⟩ := open_eq mmap size
  refine ⟨off, ?_⟩
  unfold start
  rw [hopen]
  exact ⟨hheader, by simp, ⟨off, rfl, rfl⟩, ⟨[], rfl⟩, rfl, by simp, by simp, by simp, by simp, by simp,
    fun _ => rfl⟩

/-! ## The counter -/

/-- The call counts as in flight. -/
def flying (x : Call × Phase) : Bool :=
  match x.2 with
  | .counted _ | .written _ => true
  | _ => false

theorem countP_set {puts : List (Call × Phase)} {i : ℕ} {x : Call × Phase} (h : puts[i]? = some x)
    (y : Call × Phase) :
    (puts.set i y).countP flying + (flying x).toNat = puts.countP flying + (flying y).toNat := by
  obtain ⟨pre, post, hputs, hset⟩ := exists_split h
  rw [hset, hputs]
  simp only [List.countP_append, List.countP_cons]
  cases flying x <;> cases flying y <;> simp <;> omega

/-- **The counter counts the calls in flight.** -/
theorem inflight_step (h : s.inflight = s.puts.countP flying) (act : Act) :
    (Writers.step blake3 s act).inflight = (Writers.step blake3 s act).puts.countP flying := by
  cases act with
  | reserve call =>
    rw [Writers.step]
    dsimp only
    rw [List.countP_append, h]
    split <;> rfl
  | giveBack i =>
    rw [Writers.step]
    split
    case h_1 call hi =>
      have := countP_set hi (call, .full)
      exact h.trans (by simpa [flying] using this.symm)
    case h_2 => exact h
  | count i =>
    rw [Writers.step]
    split
    case h_1 call off hi =>
      have := countP_set hi (call, .counted off)
      simp only [flying, Bool.toNat_false, Bool.toNat_true] at this
      dsimp only
      omega
    case h_2 => exact h
  | write i =>
    rw [Writers.step]
    split
    case h_1 call off hi =>
      have := countP_set hi (call, .written off)
      simp only [flying, Bool.toNat_true] at this
      dsimp only
      omega
    case h_2 => exact h
  | uncount i =>
    rw [Writers.step]
    split
    case h_1 call off hi =>
      have := countP_set hi (call, .ok off)
      simp only [flying, Bool.toNat_false, Bool.toNat_true] at this
      dsimp only
      omega
    case h_2 => exact h
  | snapshot => exact h
  | enter c =>
    rw [Writers.step]
    split
    · split <;> exact h
    · exact h
  | await c =>
    rw [Writers.step]
    split
    · split <;> exact h
    · exact h
  | fold c =>
    rw [Writers.step]
    split <;> exact h
  | store c =>
    rw [Writers.step]
    split <;> exact h

end

/-! ## A further commit -/

section
variable {blake3 : Bytes → Bytes32} {a f : ℕ} {s : Shared}

theorem Returned.noOverflow (h : ∀ x ∈ s.puts, Returned x.2) : NoOverflow s := by
  intro x hx heq
  have := h x hx
  rw [heq] at this
  exact this

theorem not_unwritten_of_returned {ph : Phase} (h : Returned ph) : ¬ Unwritten ph := by
  cases ph <;> first | exact id | exact fun _ => h

theorem not_flying_of_returned (h : ∀ x ∈ s.puts, Returned x.2) : s.puts.countP flying = 0 := by
  refine List.countP_eq_zero.mpr fun x hx hfly => ?_
  have hret := h x hx
  unfold flying at hfly
  split at hfly
  case h_1 heq =>
    rw [heq] at hret
    exact hret
  case h_2 heq =>
    rw [heq] at hret
    exact hret
  case h_3 => cases hfly

theorem Sound.all_folded (h : Sound a s f) (hnone : NoOverflow s) (hle : s.log.writeOffset ≤ f) :
    s.folds.flatten = slots s.puts := by
  obtain ⟨base, htiles, hbase⟩ := h.tiles
  obtain ⟨rest, hrest⟩ := h.folded
  have hzero : excess s.puts = 0 := excess_eq_zero hnone
  rw [hrest] at htiles
  obtain ⟨b, hb, hend⟩ := htiles.split
  obtain rfl := h.reach.unique hb
  cases rest with
  | nil => rw [hrest, List.append_nil]
  | cons r rest =>
    have h1 := (hend.mem List.mem_cons_self).2
    have h2 := (hend.mem List.mem_cons_self).1
    have h3 := r.total_pos
    omega

theorem Tiles.filter {b : ℕ} {rs : List Record} {r : Record} (h : Tiles a rs b) (hr : r ∈ rs) :
    rs.filter (fun q => q.offset = r.offset) = [r] := by
  induction rs generalizing a with
  | nil => cases hr
  | cons q rs ih =>
    have hpos := q.total_pos
    have hq := h.1
    rcases List.mem_cons.mp hr with rfl | hr
    · rw [List.filter_cons_of_pos (by simp), List.filter_eq_nil_iff.mpr]
      intro p hp
      have := (h.2.mem hp).1
      simp only [decide_eq_true_eq]
      omega
    · have := (h.2.mem hr).1
      rw [List.filter_cons_of_neg, ih h.2 hr]
      simp only [decide_eq_true_eq]
      omega

theorem run_finished {c : ℕ} (hc : s.commits[c]? = some .finished) :
    run (step blake3) s [.await c, .fold c, .store c] = s := by
  have hawait : step blake3 s (.await c) = s := by rw [step, hc]
  have hfold : step blake3 s (.fold c) = s := by rw [step, hc]
  have hstore : step blake3 s (.store c) = s := by rw [step, hc]
  rw [run_cons, hawait, run_cons, hfold, run_cons, hstore, run_nil]

theorem run_locked (blake3 : Bytes → Bytes32) (h : Sound a s f) (hquiet : ∀ x ∈ s.puts, Returned x.2)
    (hflight : s.inflight = 0) {c e : ℕ} (hc : s.commits[c]? = some (.locked e)) :
    (run (step blake3) s [.await c, .fold c, .store c]).puts = s.puts ∧
    (run (step blake3) s [.await c, .fold c, .store c]).log.writeOffset = s.log.writeOffset ∧
    Sound a (run (step blake3) s [.await c, .fold c, .store c]) e := by
  have hlt : c < s.commits.length := (List.getElem?_eq_some_iff.mp hc).1
  have hawait : step blake3 s (.await c) = { s with commits := s.commits.set c (.drained e) } := by
    rw [step, hc]
    exact if_pos hflight
  rw [run_cons, hawait]
  have h1 := h.await hc
  have hc1 : (s.commits.set c (CommitPhase.drained e))[c]? = some (.drained e) := List.getElem?_set_self hlt
  have hop : Orderly { s with commits := s.commits.set c (.drained e) } (.fold c) := by
    intro e' _ x hx hun
    exact absurd hun (not_unwritten_of_returned (hquiet x hx))
  have h2 := h1.fold blake3 hc1 hop
  have hc2 : (step blake3 { s with commits := s.commits.set c (.drained e) } (.fold c)).commits[c]? =
      some (.folded e) := by
    rw [step, hc1]
    refine List.getElem?_set_self ?_
    dsimp only
    rw [List.length_set]
    exact hlt
  have h3 := h2.store blake3 hc2
  have hkept : ∀ s' : Shared, s'.commits[c]? = some (.folded e) →
      (step blake3 s' (.store c)).puts = s'.puts ∧
      (step blake3 s' (.store c)).log.writeOffset = s'.log.writeOffset := by
    intro s' hc'
    rw [step, hc']
    exact ⟨rfl, rfl⟩
  have hfold : (step blake3 { s with commits := s.commits.set c (.drained e) } (.fold c)).puts = s.puts ∧
      (step blake3 { s with commits := s.commits.set c (.drained e) } (.fold c)).log.writeOffset =
        s.log.writeOffset := by
    rw [step, hc1]
    exact ⟨rfl, rfl⟩
  obtain ⟨hputs, hwrite⟩ := hkept _ hc2
  exact ⟨hputs.trans hfold.1, hwrite.trans hfold.2, h3⟩

/-- **A commit that is alone folds the log to its end.** -/
theorem run_alone (blake3 : Bytes → Bytes32) (h : Sound a s f) (hquiet : ∀ x ∈ s.puts, Returned x.2)
    (hflight : s.inflight = 0) (hlock : s.lock = none) {c : ℕ}
    (hc : s.commits[c]? = some (.snapped s.log.writeOffset)) :
    (run (step blake3) s [.enter c, .await c, .fold c, .store c]).puts = s.puts ∧
    (run (step blake3) s [.enter c, .await c, .fold c, .store c]).folds.flatten = slots s.puts := by
  have hnone := Returned.noOverflow hquiet
  have hlt : c < s.commits.length := (List.getElem?_eq_some_iff.mp hc).1
  have hset : ∀ ph, (s.commits.set c ph)[c]? = some ph := fun _ => List.getElem?_set_self hlt
  have h2 := h.enter blake3 hc hlock
  rw [run_cons]
  by_cases hle : s.log.writeOffset ≤ s.log.committedOffset
  · -- nothing is left to fold
    have hs2 : step blake3 s (.enter c) = { s with lock := none, commits := s.commits.set c .finished } := by
      rw [step, hc, hlock]
      exact if_pos hle
    have hf : s.log.writeOffset ≤ f := by
      rw [h.before]
      · exact hle
      · intro c' e hc'
        have := h.lock c' _ hc' trivial
        rw [hlock] at this
        cases this
    rw [hs2, run_finished (hset _)]
    exact ⟨rfl, h.all_folded hnone hf⟩
  · have hs2 : step blake3 s (.enter c) =
        { s with lock := some c, commits := s.commits.set c (.locked s.log.writeOffset) } := by
      rw [step, hc, hlock]
      exact if_neg hle
    rw [hs2] at h2 ⊢
    obtain ⟨hputs, hwrite, hsound⟩ := run_locked blake3 h2 hquiet hflight (hset _)
    refine ⟨hputs, ?_⟩
    rw [hsound.all_folded (fun x hx => hnone x (hputs ▸ hx)) hwrite.le, hputs]

end

/-- **Every record is folded by exactly one commit**: in every orderly interleaving, once all calls have
returned and a further commit has run, each call that returned `Ok` has its record in the folds once. -/
theorem each_folded_once (blake3 : Bytes → Bytes32) (mmap : ℕ → UInt8) (size : ℕ) (acts : List Act)
    (h : Along (step blake3) Orderly (start mmap size) acts)
    (hquiet : ∀ x ∈ (run (step blake3) (start mmap size) acts).puts, Returned x.2)
    (hlock : (run (step blake3) (start mmap size) acts).lock = none) (call : Call) (off : ℕ)
    (hok : (call, Phase.ok off) ∈ (run (step blake3) (start mmap size) acts).puts) :
    (run (step blake3) (start mmap size) (acts ++
        wholeCommit (run (step blake3) (start mmap size) acts).commits.length)).folds.flatten.filter
      (fun r => r.offset = off) = [call.record off] := by
  obtain ⟨a, hstart⟩ := sound_start mmap size
  obtain ⟨⟨f, hsound⟩, hflight⟩ := h.invariant
    (I := fun s => (∃ f, Sound a s f) ∧ s.inflight = s.puts.countP flying)
    (fun s act hs hact => by
      obtain ⟨⟨f, hs⟩, hflight⟩ := hs
      exact ⟨hs.step hact, inflight_step hflight act⟩)
    ⟨⟨a, hstart⟩, rfl⟩
  rw [run_append]
  set s := run (step blake3) (start mmap size) acts
  rw [not_flying_of_returned hquiet] at hflight
  have hsnap := hsound.snapshot (Returned.noOverflow hquiet)
  obtain ⟨hputs, hfolds⟩ := run_alone blake3 hsnap hquiet hflight hlock (c := s.commits.length)
    List.getElem?_concat_length
  have hrun : run (step blake3) s (wholeCommit s.commits.length) =
      run (step blake3) { s with commits := s.commits ++ [.snapped s.log.writeOffset] }
        [.enter s.commits.length, .await s.commits.length, .fold s.commits.length,
          .store s.commits.length] := rfl
  obtain ⟨base, htiles, -⟩ := hsound.tiles
  have hin : call.record off ∈ slots s.puts := List.mem_filterMap.mpr ⟨_, hok, rfl⟩
  have hone := htiles.filter hin
  rw [offset_record] at hone
  rw [hrun, hfolds]
  exact hone

/-- Two writers at once, a commit that begins between their last steps, and a deletion after it. -/
def crossing : List Act :=
  [.reserve (.put 1 [7] 0 0), .reserve (.put 2 [8] 0 0), .count 1, .write 1, .count 0, .write 0, .uncount 0,
    .snapshot, .uncount 1, .enter 0, .await 0, .fold 0, .store 0, .reserve (.delete 1 0 1), .count 2, .write 2,
    .uncount 2]

example : (run (step sampleHash) (start (fun _ => 0) 1024) crossing).commits = [.finished] := by decide +kernel

theorem crossing_folded_once :
    (run (step sampleHash) (start (fun _ => 0) 1024) crossing).commits = [.finished] ∧
    (run (step sampleHash) (start (fun _ => 0) 1024) (crossing ++ wholeCommit 1)).folds.flatten.filter
      (fun r => r.offset = 122) = [Call.record 122 (.delete 1 0 1)] := by
  have hfold : Orderly (run (step sampleHash) (start (fun _ => 0) 1024) (crossing.take 11)) (.fold 0) := by
    intro endOff _ x hx hun
    have hquiet : ∀ x ∈ (run (step sampleHash) (start (fun _ => 0) 1024) (crossing.take 11)).puts,
        Returned x.2 := by decide +kernel
    exact absurd hun (not_unwritten_of_returned (hquiet x hx))
  have hcommits : (run (step sampleHash) (start (fun _ => 0) 1024) crossing).commits = [.finished] := by
    decide +kernel
  have honce := each_folded_once sampleHash (fun _ => 0) 1024 crossing
    ⟨⟨by decide, fun _ => by decide +kernel⟩, ⟨by decide, fun _ => by decide +kernel⟩, trivial, trivial, trivial,
      trivial, trivial, show NoOverflow _ by decide +kernel, trivial, trivial, trivial, hfold, trivial,
      ⟨by decide, fun _ => by decide +kernel⟩, trivial, trivial, trivial, trivial⟩
    (by decide +kernel) (by decide +kernel) (.delete 1 0 1) 122 (by decide +kernel)
  rw [hcommits] at honce
  exact ⟨hcommits, honce⟩

/-- A commit between a writer's reservation and its count folds past the record, for good. -/
theorem commit_skips_reservation : ¬ ∀ (blake3 : Bytes → Bytes32) (mmap : ℕ → UInt8) (size : ℕ)
    (acts : List Act), (∀ x ∈ (run (step blake3) (start mmap size) acts).puts, Returned x.2) →
      (run (step blake3) (start mmap size) acts).lock = none → ∀ (call : Call) (off : ℕ),
      (call, Phase.ok off) ∈ (run (step blake3) (start mmap size) acts).puts →
        (run (step blake3) (start mmap size) (acts ++
            wholeCommit (run (step blake3) (start mmap size) acts).commits.length)).folds.flatten.filter
          (fun r => r.offset = off) = [call.record off] := by
  intro h
  have honce := h sampleHash (fun _ => 0) 1024 [.reserve (.put 1 [7] 0 0), .snapshot, .enter 0, .await 0, .fold 0,
    .store 0, .count 0, .write 0, .uncount 0] (by decide +kernel) (by decide +kernel) (.put 1 [7] 0 0) 8
    (by decide +kernel)
  revert honce
  decide +kernel

end TruthLinked.DonaDb.Writers
