import TruthLinked.Ledger.Distribution
import TruthLinked.Ledger.NativeCalls
import Mathlib.Algebra.Order.BigOperators.Group.Finset

/-! # Lock positions

The staking cell keeps a position for each owner, under hashed slots with a flag, and a vector of holders that
only grows. An owner who locks, unlocks and locks again is listed twice and counts twice when the revenue is
shared out. In a run in which nobody locks again after unlocking (`Careful`) every owner with a position is
listed once, and the balance of the cell covers the positions (`Sound`). -/

namespace TruthLinked.Ledger.StakingPositions

open Core.Types Core.Bytes Runtime.Cells Runtime.Types Staking.State Ledger.Model Ledger.Phases
open Ledger.Execution Ledger.SystemCells Ledger.CallSpecs Ledger.CellSpecs Ledger.Distribution Ledger.Slots
open Ledger.Mcp Ledger.MergeAgreement Ledger.ComputeCells Ledger.ComputeSpec Ledger.Demand Ledger.Coverage
open Ledger.NativeCalls Ledger.Executor Lib.Keyed Lib.Except Lib.Run

/-! ## Slots -/

/-- A slot of the staking cell. -/
inductive Label where
  | held (owner : AccountId)
  | value (owner : AccountId)
  | len
  | elem (i : ℕ)
  deriving DecidableEq

/-- What `derive_slot` hashes. -/
def slotInput (space : Bytes32) (parts : List Bytes) : Bytes :=
  "trth:sdk:slot:v1".toUTF8.toList ++ [0] ++ ofBytes32 space ++ parts.flatMap fun part => 0xFF :: part

/-- What is hashed for a slot. -/
def Label.input (env : Env) : Label → Bytes
  | .held owner =>
    slotInput (ns env "truthlinked.staking.positions") ["map:exists".toUTF8.toList, ofBytes32 owner]
  | .value owner =>
    slotInput (ns env "truthlinked.staking.positions") ["map:value".toUTF8.toList, ofBytes32 owner]
  | .len => slotInput (ns env "truthlinked.staking.holders") ["vec:len".toUTF8.toList]
  | .elem i => slotInput (ns env "truthlinked.staking.holders") ["vec:elem".toUTF8.toList, leBytes 8 i]

/-- The key of a slot. -/
def Label.key (env : Env) (l : Label) : Bytes32 := env.sha256 (l.input env)

/-- The slots of some owners, with the length and the first elements of the vector. -/
def labels (owners : Finset AccountId) (n : ℕ) : Set Label
  | .held owner | .value owner => owner ∈ owners
  | .len => True
  | .elem i => i < n ∧ i < u64

/-- SHA-256 has no collision among the slots of these owners and the first `n` elements. -/
def NoCollision (env : Env) (owners : Finset AccountId) (n : ℕ) : Prop :=
  Set.InjOn env.sha256 (Set.image (Label.input env) (labels owners n))

section Keys
variable {env : Env} {owners : Finset AccountId} {n : ℕ}

theorem texts_length : "trth:sdk:slot:v1".toUTF8.toList.length = 16 ∧ "map:exists".toUTF8.toList.length = 10 ∧
    "map:value".toUTF8.toList.length = 9 ∧ "vec:len".toUTF8.toList.length = 7 ∧
      "vec:elem".toUTF8.toList.length = 8 := by
  decide +kernel

theorem length_slotInput (space : Bytes32) (parts : List Bytes) :
    (slotInput space parts).length = 49 + (parts.map fun part => part.length + 1).sum := by
  have hhead := texts_length.1
  simp only [slotInput, List.length_append, hhead, length_ofBytes32, List.length_flatMap, List.length_cons,
    List.length_nil]

theorem length_input (l : Label) :
    (l.input env).length = match l with
      | .held _ => 93
      | .value _ => 92
      | .len => 57
      | .elem _ => 67 := by
  obtain ⟨-, hheld, hvalue, hlen, helem⟩ := texts_length
  cases l <;> simp only [Label.input, length_slotInput, hheld, hvalue, hlen, helem, List.map_cons, List.map_nil,
    List.sum_cons, List.sum_nil, length_ofBytes32, length_leBytes, Nat.reduceAdd]

theorem slotInput_pair (space : Bytes32) (tag : Bytes) {a b : Bytes}
    (h : slotInput space [tag, a] = slotInput space [tag, b]) : a = b := by
  simpa [slotInput] using h

theorem input_inj {l l' : Label} (h : l ∈ labels owners n) (h' : l' ∈ labels owners n)
    (heq : l.input env = l'.input env) : l = l' := by
  have hlen := congrArg List.length heq
  rw [length_input, length_input] at hlen
  have hword : ∀ {a b : AccountId}, ofBytes32 a = ofBytes32 b → a = b := fun {a b} hab => by
    rw [← toBytes32_ofBytes32 a, hab, toBytes32_ofBytes32]
  cases l <;> cases l' <;> try cases hlen
  case held.held a b => rw [hword (slotInput_pair _ _ heq)]
  case value.value a b => rw [hword (slotInput_pair _ _ heq)]
  case len.len => rfl
  case elem.elem i j => rw [(leBytes_inj h.2 h'.2).mp (slotInput_pair _ _ heq)]

theorem key_injOn (h : NoCollision env owners n) : Set.InjOn (Label.key env) (labels owners n) :=
  fun _ hl _ hl' heq =>
    input_inj hl hl' (h (Set.mem_image_of_mem _ hl) (Set.mem_image_of_mem _ hl') heq)

end Keys

/-! ## Calls -/

/-- A call of the cell. -/
structure Call where
  caller : AccountId
  calldata : Bytes
  value : ℕ
  height : ℕ

/-- `lock`, `extend` or `unlock`. -/
def Call.OfPosition (call : Call) : Prop := readSel call.calldata ∈ [sel "lock", sel "extend", sel "unlock"]

instance (call : Call) : Decidable call.OfPosition :=
  inferInstanceAs (Decidable (readSel call.calldata ∈ [sel "lock", sel "extend", sel "unlock"]))

/-- The cell after a call. A refused call changes nothing. The storage is changed first: a value that does not
fit into the balance, or a debit that is not covered, stops the transaction there. -/
def receive (env : Env) (cell : CellAccount) (call : Call) : CellAccount :=
  match staking env call.calldata call.caller cell.storage call.height call.value with
  | .error _ => cell
  | .ok r =>
    let cell := { cell with storage := changeStorage cell.storage (fromList r.storageDiff) }
    match checkedAdd cell.balance call.value with
    | none => cell
    | some credited =>
      { cell with
        balance := (checkedSub credited (r.cellDebits.map Prod.snd).sum).getD credited }

/-- The position of an owner: amount and end of the lock. -/
def positionOf (env : Env) (storage : Storage) (owner : AccountId) : Option (ℕ × ℕ) :=
  if flagAt storage (stakingExistsSlot env owner) = 1 then
    some (unpackStakingPosition ((storage[stakingValueSlot env owner]?).getD 0))
  else none

/-- The amount an owner has locked. -/
def amountOf (env : Env) (storage : Storage) (owner : AccountId) : ℕ :=
  (positionOf env storage owner).elim 0 Prod.fst

/-- The length of the vector of holders. -/
def lengthOf (env : Env) (storage : Storage) : ℕ := readSlotU64 storage (stakingHoldersLenSlot env)

/-- What the handler takes as the current position. -/
def currentOf (env : Env) (storage : Storage) (owner : AccountId) : ℕ × ℕ :=
  ((storage[stakingValueSlot env owner]?).map unpackStakingPosition).getD (0, 0)

/-- A call that the handler takes as a lock. -/
def Call.Locks (call : Call) (blocks : ℕ) : Prop :=
  readSel call.calldata = sel "lock" ∧ read32 call.calldata 4 = some call.caller ∧
    readU64 call.calldata 36 = some blocks ∧ call.value ≠ 0 ∧ blocks ≠ 0

/-- The writes of a lock. -/
def lockWrites (env : Env) (storage : Storage) (call : Call) (blocks : ℕ) : List (Label × Option Bytes32) :=
  let current := currentOf env storage call.caller
  [(.held call.caller, some (flagWord 1)),
    (.value call.caller, some (packStakingPosition (satAdd current.1 call.value)
      (max current.2 (satAdd64 call.height blocks))))] ++
  if flagAt storage (stakingExistsSlot env call.caller) = 1 then []
  else
    [(.elem (lengthOf env storage), some call.caller),
      (.len, some (packU64 (satAdd64 (lengthOf env storage) 1)))]

/-- What an accepted call writes, and what it pays out. -/
inductive Effect (env : Env) (storage : Storage) (call : Call) : List (Label × Option Bytes32) → ℕ → Prop
  | lock (blocks : ℕ) (h : call.Locks blocks) : Effect env storage call (lockWrites env storage call blocks) 0
  | extend (blocks : ℕ) (h : flagAt storage (stakingExistsSlot env call.caller) = 1) :
    Effect env storage call
      [(.value call.caller, some (packStakingPosition (currentOf env storage call.caller).1
        (max (currentOf env storage call.caller).2 (satAdd64 call.height blocks))))] 0
  | unlock (h : flagAt storage (stakingExistsSlot env call.caller) = 1) :
    Effect env storage call [(.held call.caller, none), (.value call.caller, none)]
      (currentOf env storage call.caller).1

section Handler
variable {env : Env} {call : Call} {storage : Storage}

theorem staking_ofPosition (h : call.OfPosition) (storage : Storage) :
    staking env call.calldata call.caller storage call.height call.value =
      stakingPosition env call.calldata call.caller storage call.height call.value := by
  have hdel : readSel call.calldata ∉ [sel "delegate_add", sel "delegate_remove"] := by
    have hdisj : ∀ s ∈ [sel "lock", sel "extend", sel "unlock"],
        s ∉ [sel "delegate_add", sel "delegate_remove"] := by
      decide +kernel
    exact hdisj _ h
  unfold Call.OfPosition at h
  unfold staking
  rw [if_neg hdel, if_pos h]

/-- **What the handler does**. -/
theorem staking_effect {r : ExecutionResult} (h : call.OfPosition)
    (hr : staking env call.calldata call.caller storage call.height call.value = .ok r) :
    ∃ writes credits debits, Effect env storage call writes (debits.map Prod.snd).sum ∧
      (debits = [] ∨ ∃ amount, debits = [(stakingSystemCellId env, amount)]) ∧
      r = plainResult 500 (writes.map fun w => (w.1.key env, w.2)) credits debits [] := by
  rw [staking_ofPosition h] at hr
  simp only [stakingPosition, okOr_bind_ok, failIf_bind_ok, not_not] at hr
  obtain ⟨owner, howner, rfl, hr⟩ := hr
  by_cases hlock : readSel call.calldata = sel "lock"
  · rw [if_pos hlock] at hr
    simp only [okOr_bind_ok, failIf_bind_ok, pure_eq_ok, not_or] at hr
    obtain ⟨blocks, hblocks, ⟨hvalue, hzero⟩, rfl⟩ := hr
    refine ⟨_, [], [], .lock blocks ⟨hlock, howner, hblocks, hvalue, hzero⟩, .inl rfl, ?_⟩
    unfold lockWrites
    by_cases hheld : flagAt storage (stakingExistsSlot env call.caller) = 1
    · rw [if_pos hheld]
      simp only [if_pos hheld]
      rfl
    · rw [if_neg hheld]
      simp only [if_neg hheld]
      rfl
  · rw [if_neg hlock] at hr
    simp only [failIf_bind_ok, not_not] at hr
    obtain ⟨hheld, hr⟩ := hr
    by_cases hextend : readSel call.calldata = sel "extend"
    · rw [if_pos hextend] at hr
      simp only [okOr_bind_ok, failIf_bind_ok, pure_eq_ok] at hr
      obtain ⟨blocks, -, -, rfl⟩ := hr
      exact ⟨_, [], [], .extend blocks hheld, .inl rfl, rfl⟩
    · rw [if_neg hextend] at hr
      simp only [failIf_bind_ok, pure_eq_ok] at hr
      obtain ⟨-, rfl⟩ := hr
      exact ⟨_, _, [(stakingSystemCellId env, _)], .unlock hheld, .inr ⟨_, rfl⟩, rfl⟩

end Handler

/-! ## Positions and holders after a call -/

section Views
variable {env : Env} {owners : Finset AccountId} {n : ℕ} {call : Call} {storage storage' : Storage} {owner : AccountId}

theorem unpackStakingPosition_lt (raw : Bytes32) :
    (unpackStakingPosition raw).1 < u128 ∧ (unpackStakingPosition raw).2 < u64 := by
  have h1 := leNat_lt ((ofBytes32 raw).take 16)
  have h2 := leNat_lt ((ofBytes32 raw).drop 24)
  rw [List.length_take, length_ofBytes32] at h1
  rw [List.length_drop, length_ofBytes32] at h2
  exact ⟨h1, h2⟩

theorem currentOf_lt (env : Env) (storage : Storage) (owner : AccountId) :
    (currentOf env storage owner).1 < u128 ∧ (currentOf env storage owner).2 < u64 := by
  unfold currentOf
  cases storage[stakingValueSlot env owner]? with
  | none => decide
  | some raw => exact unpackStakingPosition_lt raw

theorem positionOf_congr (hheld : storage'[stakingExistsSlot env owner]? = storage[stakingExistsSlot env owner]?)
    (hvalue : storage'[stakingValueSlot env owner]? = storage[stakingValueSlot env owner]?) :
    positionOf env storage' owner = positionOf env storage owner := by
  rw [positionOf, positionOf, flagAt_congr hheld, hvalue]

theorem positionOf_of_some {v : Bytes32} (hheld : flagAt storage (stakingExistsSlot env owner) = 1)
    (hvalue : storage[stakingValueSlot env owner]? = some v) :
    positionOf env storage owner = some (unpackStakingPosition v) := by
  rw [positionOf, if_pos hheld, hvalue]
  rfl

theorem isSome_positionOf :
    (positionOf env storage owner).isSome ↔ flagAt storage (stakingExistsSlot env owner) = 1 := by
  unfold positionOf
  split <;> simp_all

/-- No value is left behind by a position that is gone. -/
def Clean (env : Env) (owners : Finset AccountId) (storage : Storage) : Prop :=
  ∀ owner ∈ owners, positionOf env storage owner = none → storage[stakingValueSlot env owner]? = none

theorem currentOf_eq (hclean : Clean env owners storage) (ho : owner ∈ owners) :
    currentOf env storage owner = (positionOf env storage owner).getD (0, 0) := by
  have hzero : unpackStakingPosition 0 = (0, 0) := by decide
  cases hp : positionOf env storage owner with
  | none =>
    rw [currentOf, hclean owner ho hp]
    rfl
  | some p =>
    have hheld := isSome_positionOf.mp (by rw [hp]; rfl)
    rw [positionOf, if_pos hheld] at hp
    obtain rfl := Option.some.inj hp
    rw [currentOf]
    cases storage[stakingValueSlot env owner]? with
    | none => exact hzero.symm
    | some raw => rfl

theorem currentOf_fst (hclean : Clean env owners storage) (ho : owner ∈ owners) :
    (currentOf env storage owner).1 = amountOf env storage owner := by
  rw [currentOf_eq hclean ho, amountOf]
  cases positionOf env storage owner <;> rfl

theorem Effect.labels {writes : List (Label × Option Bytes32)} {debit : ℕ}
    (h : Effect env storage call writes debit) (hcaller : call.caller ∈ owners)
    (hlen : lengthOf env storage < n) :
    ∀ w ∈ writes, w.1 ∈ labels owners n := by
  have hheld : Label.held call.caller ∈ StakingPositions.labels owners n := hcaller
  have hvalue : Label.value call.caller ∈ StakingPositions.labels owners n := hcaller
  have helem : Label.elem (lengthOf env storage) ∈ StakingPositions.labels owners n :=
    ⟨hlen, readSlotU64_lt _ _⟩
  have hlen' : Label.len ∈ StakingPositions.labels owners n := trivial
  cases h with
  | lock blocks _ =>
    unfold lockWrites
    split <;> simp [hheld, hvalue, helem, hlen']
  | extend blocks _ => simp [hvalue]
  | unlock _ => simp [hheld, hvalue]

/-- Two storages that differ by some writes, as far as the listed slots go. -/
def Written (env : Env) (owners : Finset AccountId) (n : ℕ) (writes : List (Label × Option Bytes32))
    (storage storage' : Storage) : Prop :=
  ∀ l ∈ labels owners n, storage'[l.key env]? = overlaid writes l storage[l.key env]?

theorem holdersIn_eq (hlen : lengthOf env storage' = lengthOf env storage)
    (helem : ∀ i < lengthOf env storage,
      storage'[stakingHoldersElemSlot env i]? = storage[stakingHoldersElemSlot env i]?) :
    holdersIn env storage' = holdersIn env storage := by
  unfold holdersIn
  rw [show readSlotU64 storage' (stakingHoldersLenSlot env) =
    readSlotU64 storage (stakingHoldersLenSlot env) from hlen]
  exact List.filterMap_congr fun i hi => helem i (List.mem_range.mp hi)

theorem holdersIn_push (hlen : lengthOf env storage' = lengthOf env storage + 1)
    (helem : ∀ i < lengthOf env storage,
      storage'[stakingHoldersElemSlot env i]? = storage[stakingHoldersElemSlot env i]?)
    (hlast : storage'[stakingHoldersElemSlot env (lengthOf env storage)]? = some owner) :
    holdersIn env storage' = holdersIn env storage ++ [owner] := by
  have hsame : ((List.range (lengthOf env storage)).filterMap fun i => storage'[stakingHoldersElemSlot env i]?) =
      (List.range (lengthOf env storage)).filterMap fun i => storage[stakingHoldersElemSlot env i]? :=
    List.filterMap_congr fun i hi => helem i (List.mem_range.mp hi)
  rw [holdersIn, show readSlotU64 storage' (stakingHoldersLenSlot env) = lengthOf env storage + 1 from hlen,
    List.range_succ, List.filterMap_append, hsame]
  simp only [List.filterMap_cons, hlast, List.filterMap_nil]
  rfl

/-- What a call does to the positions and to the vector: `gain` is what it adds to its caller's position and
`debit` what it pays out. -/
structure Turn (env : Env) (owners : Finset AccountId) (storage storage' : Storage) (caller : AccountId)
    (gain debit : ℕ) : Prop where
  others : ∀ owner ∈ owners, owner ≠ caller → positionOf env storage' owner = positionOf env storage owner ∧
    storage'[stakingValueSlot env owner]? = storage[stakingValueSlot env owner]?
  gone : positionOf env storage' caller = none → storage'[stakingValueSlot env caller]? = none
  amount : amountOf env storage' caller + debit ≤ amountOf env storage caller + gain
  holders : (holdersIn env storage' = holdersIn env storage ∧ lengthOf env storage' = lengthOf env storage ∧
      ((positionOf env storage' caller).isSome → (positionOf env storage caller).isSome)) ∨
    (holdersIn env storage' = holdersIn env storage ++ [caller] ∧
      lengthOf env storage' = lengthOf env storage + 1 ∧ positionOf env storage caller = none)

theorem Effect.others {writes : List (Label × Option Bytes32)} {debit : ℕ}
    (h : Effect env storage call writes debit) (hne : owner ≠ call.caller) :
    (∀ w ∈ writes, w.1 ≠ Label.held owner) ∧ ∀ w ∈ writes, w.1 ≠ Label.value owner := by
  cases h with
  | lock blocks _ =>
    unfold lockWrites
    split <;> simp [Ne.symm hne]
  | extend blocks _ => simp [Ne.symm hne]
  | unlock _ => simp [Ne.symm hne]

theorem holders_of_ne {writes : List (Label × Option Bytes32)} (hw : Written env owners n writes storage storage')
    (hn : lengthOf env storage ≤ n) (hlen : ∀ w ∈ writes, w.1 ≠ Label.len)
    (helem : ∀ w ∈ writes, ∀ i, w.1 ≠ Label.elem i) :
    holdersIn env storage' = holdersIn env storage ∧ lengthOf env storage' = lengthOf env storage := by
  have hlength : lengthOf env storage' = lengthOf env storage :=
    readSlotU64_congr ((hw .len trivial).trans (overlaid_of_ne hlen _))
  have hlt : lengthOf env storage < u64 := readSlotU64_lt _ _
  refine ⟨holdersIn_eq hlength fun i hi => ?_, hlength⟩
  exact (hw (.elem i) ⟨by omega, by omega⟩).trans (overlaid_of_ne (fun w hmem => helem w hmem i) _)

section Turns
variable {writes : List (Label × Option Bytes32)} {debit : ℕ}

theorem turn_others (he : Effect env storage call writes debit)
    (hw : Written env owners n writes storage storage') (ho : owner ∈ owners) (hne : owner ≠ call.caller) :
    positionOf env storage' owner = positionOf env storage owner ∧
      storage'[stakingValueSlot env owner]? = storage[stakingValueSlot env owner]? := by
  obtain ⟨hheld, hvalue⟩ := he.others hne
  have hheld' : storage'[stakingExistsSlot env owner]? = storage[stakingExistsSlot env owner]? :=
    (hw (.held owner) ho).trans (overlaid_of_ne hheld _)
  have hvalue' : storage'[stakingValueSlot env owner]? = storage[stakingValueSlot env owner]? :=
    (hw (.value owner) ho).trans (overlaid_of_ne hvalue _)
  exact ⟨positionOf_congr hheld' hvalue', hvalue'⟩

theorem amountOf_packed {amount lockEnd : ℕ} (ha : amount < u128) (he : lockEnd < u64)
    (hheld : flagAt storage (stakingExistsSlot env owner) = 1)
    (hvalue : storage[stakingValueSlot env owner]? = some (packStakingPosition amount lockEnd)) :
    positionOf env storage owner = some (amount, lockEnd) ∧ amountOf env storage owner = amount := by
  have hp := positionOf_of_some hheld hvalue
  rw [unpack_packStakingPosition ha he] at hp
  refine ⟨hp, ?_⟩
  rw [amountOf, hp]
  rfl

theorem lockEnd_lt (env : Env) (storage : Storage) (owner : AccountId) (height blocks : ℕ) :
    max (currentOf env storage owner).2 (satAdd64 height blocks) < u64 := by
  have hsat : satAdd64 height blocks < u64 := by
    have hpos : 0 < u64 := by decide
    unfold satAdd64
    omega
  exact max_lt (currentOf_lt env storage owner).2 hsat

theorem turn_lock {blocks : ℕ} (hw : Written env owners n (lockWrites env storage call blocks) storage storage')
    (hlocks : call.Locks blocks) (hclean : Clean env owners storage) (hcaller : call.caller ∈ owners)
    (hn : lengthOf env storage < n)
    (hroom : positionOf env storage call.caller = none → lengthOf env storage + 1 < u64) :
    Turn env owners storage storage' call.caller call.value 0 := by
  have hheld' : storage'[stakingExistsSlot env call.caller]? = some (flagWord 1) := by
    refine (hw (.held call.caller) hcaller).trans ?_
    unfold lockWrites overlaid
    split <;> simp
  have hvalue' : storage'[stakingValueSlot env call.caller]? =
      some (packStakingPosition (satAdd (currentOf env storage call.caller).1 call.value)
        (max (currentOf env storage call.caller).2 (satAdd64 call.height blocks))) := by
    refine (hw (.value call.caller) hcaller).trans ?_
    unfold lockWrites overlaid
    split <;> simp
  have hflag : flagAt storage' (stakingExistsSlot env call.caller) = 1 := by
    rw [flagAt_of_some hheld', headD_flagWord]
  have hsat : satAdd (currentOf env storage call.caller).1 call.value < u128 := by
    have hpos : 0 < u128 := by decide
    unfold satAdd
    omega
  obtain ⟨hposition, hamount⟩ :=
    amountOf_packed hsat (lockEnd_lt env storage call.caller call.height blocks) hflag hvalue'
  have hcur := currentOf_fst hclean hcaller
  refine ⟨fun owner ho hne => turn_others (.lock blocks hlocks) hw ho hne, fun h => ?_, ?_, ?_⟩
  · rw [hposition] at h
    cases h
  · rw [hamount, hcur]
    unfold satAdd
    omega
  · by_cases hheld : flagAt storage (stakingExistsSlot env call.caller) = 1
    · left
      have hwrites : lockWrites env storage call blocks =
          [(.held call.caller, some (flagWord 1)), (.value call.caller,
            some (packStakingPosition (satAdd (currentOf env storage call.caller).1 call.value)
              (max (currentOf env storage call.caller).2 (satAdd64 call.height blocks))))] := by
        rw [lockWrites, if_pos hheld]
        rfl
      rw [hwrites] at hw
      obtain ⟨h1, h2⟩ := holders_of_ne hw hn.le (by simp) (by simp)
      exact ⟨h1, h2, fun _ => isSome_positionOf.mpr hheld⟩
    · right
      have hnone : positionOf env storage call.caller = none := by
        rw [positionOf, if_neg hheld]
      have hroom' := hroom hnone
      have hlen : lengthOf env storage' = lengthOf env storage + 1 := by
        have hslot : storage'[stakingHoldersLenSlot env]? =
            some (packU64 (satAdd64 (lengthOf env storage) 1)) := by
          refine (hw .len trivial).trans ?_
          unfold lockWrites overlaid
          rw [if_neg hheld]
          simp
        have hadd : satAdd64 (lengthOf env storage) 1 = lengthOf env storage + 1 := by
          unfold satAdd64
          omega
        rw [lengthOf, readSlotU64_of_some hslot, hadd, decodeU64_packU64 hroom']
      have helem : ∀ i < lengthOf env storage,
          storage'[stakingHoldersElemSlot env i]? = storage[stakingHoldersElemSlot env i]? := by
        intro i hi
        refine (hw (.elem i) ⟨by omega, by omega⟩).trans ?_
        unfold lockWrites overlaid
        rw [if_neg hheld]
        simp [Nat.ne_of_gt hi]
        rfl
      have hlast : storage'[stakingHoldersElemSlot env (lengthOf env storage)]? = some call.caller := by
        refine (hw (.elem _) ⟨hn, by omega⟩).trans ?_
        unfold lockWrites overlaid
        rw [if_neg hheld]
        simp
      exact ⟨holdersIn_push hlen helem hlast, hlen, hnone⟩

theorem turn_extend {blocks : ℕ}
    (hheld : flagAt storage (stakingExistsSlot env call.caller) = 1)
    (hw : Written env owners n
      [(.value call.caller, some (packStakingPosition (currentOf env storage call.caller).1
      (max (currentOf env storage call.caller).2 (satAdd64 call.height blocks))))] storage storage')
    (hclean : Clean env owners storage) (hcaller : call.caller ∈ owners) (hn : lengthOf env storage < n) :
    Turn env owners storage storage' call.caller 0 0 := by
  have hheld' : storage'[stakingExistsSlot env call.caller]? = storage[stakingExistsSlot env call.caller]? :=
    (hw (.held call.caller) hcaller).trans (overlaid_of_ne (by simp) _)
  have hvalue' : storage'[stakingValueSlot env call.caller]? =
      some (packStakingPosition (currentOf env storage call.caller).1
        (max (currentOf env storage call.caller).2 (satAdd64 call.height blocks))) := by
    refine (hw (.value call.caller) hcaller).trans ?_
    simp [overlaid]
  have hflag : flagAt storage' (stakingExistsSlot env call.caller) = 1 := by
    rw [flagAt_congr hheld', hheld]
  obtain ⟨hposition, hamount⟩ := amountOf_packed (currentOf_lt env storage call.caller).1
    (lockEnd_lt env storage call.caller call.height blocks) hflag hvalue'
  obtain ⟨h1, h2⟩ := holders_of_ne hw hn.le (by simp) (by simp)
  refine ⟨fun owner ho hne => turn_others (.extend blocks hheld) hw ho hne, fun h => ?_,
    ?_, .inl ⟨h1, h2, fun _ => ?_⟩⟩
  · rw [hposition] at h
    cases h
  · rw [hamount, currentOf_fst hclean hcaller]
  · exact isSome_positionOf.mpr hheld

theorem turn_unlock (hheld : flagAt storage (stakingExistsSlot env call.caller) = 1)
    (hw : Written env owners n [(.held call.caller, none), (.value call.caller, none)] storage storage')
    (hclean : Clean env owners storage) (hcaller : call.caller ∈ owners) (hn : lengthOf env storage < n) :
    Turn env owners storage storage' call.caller 0 (currentOf env storage call.caller).1 := by
  have hheld' : storage'[stakingExistsSlot env call.caller]? = none := by
    refine (hw (.held call.caller) hcaller).trans ?_
    simp [overlaid]
  have hvalue' : storage'[stakingValueSlot env call.caller]? = none := by
    refine (hw (.value call.caller) hcaller).trans ?_
    simp [overlaid]
  have hposition : positionOf env storage' call.caller = none := by
    rw [positionOf, flagAt_of_none hheld']
    rfl
  obtain ⟨h1, h2⟩ := holders_of_ne hw hn.le (by simp) (by simp)
  refine ⟨fun owner ho hne => turn_others (.unlock hheld) hw ho hne, fun _ => hvalue', ?_,
    .inl ⟨h1, h2, fun _ => isSome_positionOf.mpr hheld⟩⟩
  rw [currentOf_fst hclean hcaller, amountOf, hposition]
  simp

end Turns

end Views

/-! ## Runs -/

/-- A lock that the vector of holders stands: the owner has a position, or is not listed and there is room in
the vector. The balance has room for the value. -/
def Careful (env : Env) (cell : CellAccount) (call : Call) : Prop :=
  ∀ blocks, call.Locks blocks →
    ((positionOf env cell.storage call.caller).isSome ∨
      (call.caller ∉ holdersIn env cell.storage ∧ lengthOf env cell.storage + 1 < u64)) ∧
    cell.balance + call.value < u128

/-- What a run keeps. -/
structure Kept (env : Env) (owners : Finset AccountId) (storage : Storage) (balance : ℕ) : Prop where
  nodup : (holdersIn env storage).Nodup
  listed : ∀ owner ∈ owners, (positionOf env storage owner).isSome → owner ∈ holdersIn env storage
  clean : Clean env owners storage
  covered : ∀ F ⊆ owners, ∑ owner ∈ F, amountOf env storage owner ≤ balance

section Runs
variable {env : Env} {owners : Finset AccountId} {n : ℕ} {cell : CellAccount} {call : Call}

theorem receive_ok {r : ExecutionResult}
    (hr : staking env call.calldata call.caller cell.storage call.height call.value = .ok r) :
    receive env cell call =
      { cell with
        storage := changeStorage cell.storage (fromList r.storageDiff)
        balance := if cell.balance + call.value < u128 then
            if (r.cellDebits.map Prod.snd).sum ≤ cell.balance + call.value then
              cell.balance + call.value - (r.cellDebits.map Prod.snd).sum
            else cell.balance + call.value
          else cell.balance } := by
  unfold receive
  rw [hr]
  simp only [checkedAdd, checkedSub]
  by_cases hfit : cell.balance + call.value < u128
  · by_cases hle : (r.cellDebits.map Prod.snd).sum ≤ cell.balance + call.value
    · simp only [if_pos hfit, if_pos hle, Option.getD_some]
    · simp only [if_pos hfit, if_neg hle, Option.getD_none]
  · simp only [if_neg hfit]

theorem Turn.sum_le {storage storage' : Storage} {caller : AccountId} {gain debit : ℕ}
    (h : Turn env owners storage storage' caller gain debit) {F : Finset AccountId} (hF : F ⊆ owners)
    (hcaller : caller ∈ F) :
    ∑ owner ∈ F, amountOf env storage' owner + debit ≤ ∑ owner ∈ F, amountOf env storage owner + gain := by
  have hrest : ∑ owner ∈ F.erase caller, amountOf env storage' owner =
      ∑ owner ∈ F.erase caller, amountOf env storage owner := by
    refine Finset.sum_congr rfl fun owner ho => ?_
    obtain ⟨hne, hmem⟩ := Finset.mem_erase.mp ho
    rw [amountOf, amountOf, (h.others owner (hF hmem) hne).1]
  have hold := Finset.add_sum_erase F (amountOf env storage) hcaller
  have hnew := Finset.add_sum_erase F (amountOf env storage') hcaller
  have hamount := h.amount
  omega

theorem Turn.kept {storage storage' : Storage} {caller : AccountId} {gain debit balance balance' : ℕ}
    (h : Turn env owners storage storage' caller gain debit) (hk : Kept env owners storage balance)
    (hcaller : caller ∈ owners) (hnew : positionOf env storage caller = none → caller ∉ holdersIn env storage)
    (hbalance : balance + gain ≤ balance' + debit) : Kept env owners storage' balance' := by
  refine ⟨?_, fun owner ho hsome => ?_, fun owner ho hnone => ?_, fun F hF => ?_⟩
  · rcases h.holders with ⟨hh, -⟩ | ⟨hh, -, hnone⟩
    · rw [hh]
      exact hk.nodup
    · rw [hh]
      exact hk.nodup.append (List.nodup_singleton caller) (List.disjoint_singleton.mpr (hnew hnone))
  · by_cases hne : owner = caller
    · subst hne
      rcases h.holders with ⟨hh, -, hkeep⟩ | ⟨hh, -⟩
      · rw [hh]
        exact hk.listed owner ho (hkeep hsome)
      · rw [hh]
        exact List.mem_append_right _ (List.mem_singleton_self owner)
    · have hold := hk.listed owner ho ((h.others owner ho hne).1 ▸ hsome)
      rcases h.holders with ⟨hh, -⟩ | ⟨hh, -⟩
      · rwa [hh]
      · rw [hh]
        exact List.mem_append_left _ hold
  · by_cases hne : owner = caller
    · subst hne
      exact h.gone hnone
    · obtain ⟨hp, hv⟩ := h.others owner ho hne
      rw [hv]
      exact hk.clean owner ho (hp ▸ hnone)
  · have hsub : insert caller F ⊆ owners := Finset.insert_subset hcaller hF
    have hle : ∑ owner ∈ F, amountOf env storage' owner ≤ ∑ owner ∈ insert caller F,
        amountOf env storage' owner :=
      Finset.sum_le_sum_of_subset (Finset.subset_insert _ _)
    have hsum := h.sum_le hsub (Finset.mem_insert_self caller F)
    have hcov := hk.covered _ hsub
    omega

/-- **One call**: what a run keeps is kept, and the vector grows by one at most. -/
theorem kept_receive (hcol : NoCollision env owners n) (hcaller : call.caller ∈ owners) (hpos : call.OfPosition)
    (hn : lengthOf env cell.storage < n) (hcareful : Careful env cell call)
    (hk : Kept env owners cell.storage cell.balance) :
    Kept env owners (receive env cell call).storage (receive env cell call).balance ∧
      lengthOf env (receive env cell call).storage ≤ lengthOf env cell.storage + 1 := by
  cases hr : staking env call.calldata call.caller cell.storage call.height call.value with
  | error e =>
    have hsame : receive env cell call = cell := by rw [receive, hr]
    rw [hsame]
    exact ⟨hk, Nat.le_succ _⟩
  | ok r =>
    obtain ⟨writes, credits, debits, he, -, hresult⟩ := staking_effect hpos hr
    obtain ⟨debit, hdebit⟩ : ∃ debit, (debits.map Prod.snd).sum = debit := ⟨_, rfl⟩
    have hdiff : r.storageDiff = writes.map fun w => (w.1.key env, w.2) := by rw [hresult]; rfl
    have hsum : (r.cellDebits.map Prod.snd).sum = debit := by rw [hresult, ← hdebit]; rfl
    rw [receive_ok hr, hdiff, hsum]
    rw [hdebit] at he
    have hw : Written env owners n writes cell.storage (write (Label.key env) cell.storage writes) := fun l hl =>
      getElem?_write (key_injOn hcol) hl (he.labels hcaller hn) cell.storage
    -- a call that adds nothing to a position may fail to credit its value, and pays out what it takes off
    have hold : cell.balance ≤ (if cell.balance + call.value < u128 then
        if debit ≤ cell.balance + call.value then cell.balance + call.value - debit
        else cell.balance + call.value else cell.balance) + debit := by
      split_ifs <;> omega
    have hlength : ∀ {gain}, Turn env owners cell.storage (write (Label.key env) cell.storage writes)
        call.caller gain
        debit → lengthOf env (write (Label.key env) cell.storage writes) ≤ lengthOf env cell.storage + 1 := by
      intro gain ht
      rcases ht.holders with ⟨-, hl, -⟩ | ⟨-, hl, -⟩ <;> omega
    cases he with
    | lock blocks hlocks =>
      obtain ⟨hnew, hfit⟩ := hcareful blocks hlocks
      have hnew' : positionOf env cell.storage call.caller = none →
          call.caller ∉ holdersIn env cell.storage ∧ lengthOf env cell.storage + 1 < u64 := by
        intro hnone
        rw [hnone] at hnew
        exact hnew.resolve_left (by simp)
      have ht := turn_lock hw hlocks hk.clean hcaller hn fun h => (hnew' h).2
      refine ⟨ht.kept hk hcaller (fun h => (hnew' h).1) ?_, hlength ht⟩
      rw [if_pos hfit, if_pos (Nat.zero_le _)]
      exact le_rfl
    | extend blocks hheld =>
      have ht := turn_extend hheld hw hk.clean hcaller hn
      exact ⟨ht.kept hk hcaller (fun h => absurd (isSome_positionOf.mpr hheld) (by simp [h])) hold, hlength ht⟩
    | unlock hheld =>
      have ht := turn_unlock hheld hw hk.clean hcaller hn
      exact ⟨ht.kept hk hcaller (fun h => absurd (isSome_positionOf.mpr hheld) (by simp [h])) hold, hlength ht⟩

/-- **A run of calls.** -/
theorem kept_run (hcol : NoCollision env owners n) {calls : List Call}
    (hcallers : ∀ call ∈ calls, call.caller ∈ owners) (hpos : ∀ call ∈ calls, call.OfPosition)
    (hn : lengthOf env cell.storage + calls.length ≤ n) (hcareful : Along (receive env) (Careful env) cell calls)
    (hk : Kept env owners cell.storage cell.balance) :
    Kept env owners (run (receive env) cell calls).storage (run (receive env) cell calls).balance := by
  induction calls generalizing cell with
  | nil => exact hk
  | cons call calls ih =>
    rw [List.length_cons] at hn
    obtain ⟨hk', hlen⟩ := kept_receive hcol (hcallers call List.mem_cons_self) (hpos call List.mem_cons_self)
      (by omega) hcareful.1 hk
    exact ih (fun c hc => hcallers c (List.mem_cons_of_mem _ hc)) (fun c hc => hpos c (List.mem_cons_of_mem _ hc))
      (by omega) hcareful.2 hk'

end Runs

/-! ## The distribution -/

/-- Each holder's lock-weighted balance counts once, and is paid for once. -/
structure CountedOnce (env : Env) (owners : Finset AccountId) (s : State) : Prop where
  once : ((stakingBalances env s).map Prod.fst).Nodup
  every : ∀ owner ∈ owners, ∀ weight, stakingBalanceOf env s owner = some weight →
    (owner, weight) ∈ stakingBalances env s
  paid : ∀ d burned, computeTreasuryDistributionDiff env s = .ok (d, burned) →
    (d.nativeTransfers.map Prod.fst).Nodup

/-- Every owner with a position is listed once, nobody is listed twice, each weight counts once, and the
balance covers the positions. -/
structure Sound (env : Env) (owners : Finset AccountId) (cell : CellAccount) : Prop where
  once : ∀ owner ∈ owners, (positionOf env cell.storage owner).isSome →
    (holdersIn env cell.storage).count owner = 1
  nodup : (holdersIn env cell.storage).Nodup
  counted : ∀ s : State, s.cells.cells[stakingSystemCellId env]? = some cell → CountedOnce env owners s
  covered : ∀ F ⊆ owners, ∑ owner ∈ F, amountOf env cell.storage owner ≤ cell.balance

section Distribution
variable {env : Env} {owners : Finset AccountId} {cell : CellAccount} {s : State}

theorem map_fst_filterMap {α β : Type} (f : α → Option β) (l : List α) :
    ((l.filterMap fun a => (f a).map fun b => (a, b)).map Prod.fst).Sublist l := by
  induction l with
  | nil => exact .slnil
  | cons a l ih =>
    cases hf : f a with
    | none =>
      rw [List.filterMap_cons_none (by rw [hf]; rfl)]
      exact .cons a ih
    | some b =>
      rw [List.filterMap_cons_some (by rw [hf]; rfl), List.map_cons]
      exact .cons_cons a ih

theorem map_fst_sharesOf {K : Type} (amount total : ℕ) (weights : List (K × ℕ)) :
    ((sharesOf amount total weights).map Prod.fst).Sublist (weights.map Prod.fst) := by
  unfold sharesOf
  split
  · have hmap : (weights.map fun e => (e.1, satMul amount e.2 / total)).map Prod.fst = weights.map Prod.fst := by
      rw [List.map_map]
      rfl
    rw [← hmap]
    exact List.Sublist.map _ List.filter_sublist
  · exact List.nil_sublist _

theorem nativeTransfers_shares {d : StateDiff} {burned : ℕ}
    (h : computeTreasuryDistributionDiff env s = .ok (d, burned)) :
    ∃ amount total, d.nativeTransfers.Sublist (sharesOf amount total (stakingBalances env s)) := by
  unfold computeTreasuryDistributionDiff at h
  by_cases hzero : satAdd (satAdd (satAdd s.accumulatedGasFees s.accumulatedNameFees)
    s.accumulatedComputeFeesTlkd)
      s.accumulatedTreasuryFees = 0
  · rw [if_pos hzero, pure_eq_ok] at h
    cases h
    exact ⟨0, 0, List.nil_sublist _⟩
  · rw [if_neg hzero, bind_eq_ok] at h
    obtain ⟨updates, -, h⟩ := h
    cases h
    exact ⟨_, _, List.Sublist.refl _⟩

theorem countedOnce_of_kept (hk : Kept env owners cell.storage cell.balance)
    (hcell : s.cells.cells[stakingSystemCellId env]? = some cell) : CountedOnce env owners s := by
  have hstorage : stakingStorage env s = cell.storage := by
    rw [stakingStorage, hcell]
    rfl
  have hholders : loadStakingHolders env s = holdersIn env cell.storage := by
    rw [loadStakingHolders, hstorage]
  have honce : ((stakingBalances env s).map Prod.fst).Nodup := by
    refine List.Nodup.sublist (map_fst_filterMap _ _) ?_
    rw [hholders]
    exact hk.nodup
  refine ⟨honce, fun owner ho weight hweight => ?_, fun d burned hd => ?_⟩
  · have hheld : (positionOf env cell.storage owner).isSome := by
      rw [isSome_positionOf]
      by_contra hflag
      rw [stakingBalanceOf, hstorage, weightIn, if_pos hflag] at hweight
      cases hweight
    refine List.mem_filterMap.mpr ⟨owner, ?_, by rw [hweight]; rfl⟩
    rw [hholders]
    exact hk.listed owner ho hheld
  · obtain ⟨amount, total, hsub⟩ := nativeTransfers_shares hd
    exact honce.sublist ((hsub.map Prod.fst).trans (map_fst_sharesOf amount total _))

theorem sound_of_kept (hk : Kept env owners cell.storage cell.balance) : Sound env owners cell where
  once owner ho hsome := List.count_eq_one_of_mem hk.nodup (hk.listed owner ho hsome)
  nodup := hk.nodup
  counted _ hcell := countedOnce_of_kept hk hcell
  covered := hk.covered

theorem kept_genesis (hcell : cell.storage = ∅) : Kept env owners cell.storage cell.balance := by
  have hlen : lengthOf env cell.storage = 0 := by
    rw [hcell, lengthOf, readSlotU64, Std.ExtTreeMap.getElem?_empty]
    rfl
  have hholders : holdersIn env cell.storage = [] := by
    rw [holdersIn, show readSlotU64 cell.storage (stakingHoldersLenSlot env) = 0 from hlen]
    rfl
  have hposition : ∀ owner, positionOf env cell.storage owner = none := by
    intro owner
    rw [hcell, positionOf, flagAt_of_none Std.ExtTreeMap.getElem?_empty]
    rfl
  refine ⟨by rw [hholders]; exact List.nodup_nil, fun owner _ h => ?_, fun owner _ _ => ?_, fun F _ => ?_⟩
  · rw [hposition] at h
    cases h
  · rw [hcell, Std.ExtTreeMap.getElem?_empty]
  · have hzero : ∀ owner ∈ F, amountOf env cell.storage owner = 0 := by
      intro owner _
      rw [amountOf, hposition]
      rfl
    rw [Finset.sum_eq_zero hzero]
    exact Nat.zero_le _

end Distribution

/-- **Positions and holders**: in a run of calls of the fresh cell in which nobody locks again after
unlocking, and the vector and the balance have room, the positions are listed once and covered after every
call. -/
theorem sound_of_careful {env : Env} {owners : Finset AccountId} {cell : CellAccount} {calls : List Call}
    (hcell : cell.storage = ∅) (hcol : NoCollision env owners calls.length)
    (hcallers : ∀ call ∈ calls, call.caller ∈ owners) (hpos : ∀ call ∈ calls, call.OfPosition)
    (hcareful : Along (receive env) (Careful env) cell calls) (i : ℕ) :
    Sound env owners (run (receive env) cell (calls.take i)) := by
  have hlen : lengthOf env cell.storage = 0 := by
    rw [hcell, lengthOf, readSlotU64, Std.ExtTreeMap.getElem?_empty]
    rfl
  have hprefix : Along (receive env) (Careful env) cell (calls.take i) := by
    rw [← List.take_append_drop i calls] at hcareful
    exact hcareful.of_append.1
  refine sound_of_kept (kept_run hcol (fun call hc => hcallers call (List.mem_of_mem_take hc))
    (fun call hc => hpos call (List.mem_of_mem_take hc)) ?_ hprefix (kept_genesis hcell))
  rw [hlen, Nat.zero_add]
  exact List.length_take_le' _ _

/-! ## Transactions -/

section Transactions
variable {env : Env} {w : World} {tx : Transaction} {cell : CellAccount} {calldata : Bytes} {value gasLimit : ℕ}

/-- The call that a transaction makes. -/
def callOf (w : World) (tx : Transaction) (calldata : Bytes) (value : ℕ) : Call :=
  ⟨tx.sender, calldata, value, w.state.staking.currentHeight⟩

theorem Effect.ne_nil {storage : Storage} {call : Call} {writes : List (Label × Option Bytes32)} {debit : ℕ}
    (h : Effect env storage call writes debit) : writes ≠ [] := by
  cases h with
  | lock blocks _ =>
    unfold lockWrites
    simp
  | extend blocks _ => simp
  | unlock _ => simp

/-- **A transaction that calls the staking cell** does to it what `receive` says. -/
theorem runTransaction_receive (hintent : tx.intent = .callCell (stakingSystemCellId env) calldata value gasLimit)
    (hcell : w.state.cells.cells[stakingSystemCellId env]? = some cell) (hbalance : cell.balance < u128)
    (hpos : (callOf w tx calldata value).OfPosition) {d : StateDiff}
    (hd : computeTransactionDiffSkipSig env w tx = .ok d) (hcovers : Covers env w tx) :
    (runTransaction env tx w).2.state.cells.cells[stakingSystemCellId env]? =
      some (receive env cell (callOf w tx calldata value)) := by
  have hsystem : isSystemCell env (stakingSystemCellId env) = true := by
    rw [isSystemCell, decide_eq_true_eq]
    exact List.mem_cons_self
  have hfits : SystemCallFits env w.state tx.sender (txByteFee env w tx) (stakingSystemCellId env)
      (askedSystemCall env w (stakingSystemCellId env) calldata value) value := by
    have h := hcovers
    rw [Covers, hintent] at h
    exact h hsystem
  have hheld : cellHeld (cellSlot w.state.cells (stakingSystemCellId env)) = cell.balance := by
    rw [cellSlot, show slot w.state.cells.cells (stakingSystemCellId env) = some cell from hcell]
    rfl
  obtain ⟨account, d₁, f, -, h1, -, rfl⟩ := compute_eq_ok hd
  rw [hintent] at h1
  obtain ⟨r, hr, rfl⟩ := computeIntent_native hsystem hcell h1
  rw [SystemCells.handler, if_pos rfl] at hr
  have hcredit : cell.balance + value < u128 := by
    by_cases hv : 0 < value
    · have h := hfits.credit hv
      rwa [hheld] at h
    · omega
  have hdebit : (r.cellDebits.map Prod.snd).sum ≤ cell.balance + value := by
    have hasks := asks_staking env calldata tx.sender cell.storage w.state.staking.currentHeight value r hr
    have h := hfits.debit
    rw [hheld, askedSystemCall, requestedPayments, if_pos rfl, hcell] at h
    rw [hasks.cellDebits, List.map_map]
    exact h
  have hreceive : receive env cell (callOf w tx calldata value) =
      { cell with
        storage := changeStorage cell.storage (fromList r.storageDiff)
        balance := cell.balance + value - (r.cellDebits.map Prod.snd).sum } := by
    rw [receive_ok hr]
    simp only [callOf, hcredit, hdebit, ↓reduceIte]
  obtain ⟨writes, credits, debits, he, hdebits, rfl⟩ := staking_effect hpos hr
  have hnil : (writes.map fun w => (w.1.key env, w.2)) ≠ [] := by simp [he.ne_nil]
  rw [Runs.runTransaction_applied hd hcovers, cells_callDiff hnil, hreceive]
  exact cellSlot_moved env value _ hcell hdebits

end Transactions

/-! ## Samples -/

/-- The slots of some owners, with the length and the first elements of the vector, in a list. -/
def labelList (owners : List AccountId) (n : ℕ) : List Label :=
  owners.flatMap (fun owner => [.held owner, .value owner]) ++ .len :: (List.range n).map .elem

theorem noCollision_of_nodup {env : Env} {owners : List AccountId} {n : ℕ}
    (h : ((labelList owners n).map (Label.key env)).Nodup) : NoCollision env owners.toFinset n := by
  have hmem : ∀ l ∈ labels owners.toFinset n, l ∈ labelList owners n := by
    intro l hl
    cases l with
    | held owner => exact List.mem_append_left _ (List.mem_flatMap.mpr ⟨owner, List.mem_toFinset.mp hl, by simp⟩)
    | value owner => exact List.mem_append_left _ (List.mem_flatMap.mpr ⟨owner, List.mem_toFinset.mp hl, by simp⟩)
    | len => exact List.mem_append_right _ List.mem_cons_self
    | elem i =>
      exact List.mem_append_right _ (List.mem_cons_of_mem _ (List.mem_map_of_mem (List.mem_range.mpr hl.1)))
  rintro _ ⟨l, hl, rfl⟩ _ ⟨l', hl', rfl⟩ heq
  rw [List.inj_on_of_nodup_map h (hmem l hl) (hmem l' hl') heq]

def positionsSpace : Bytes32 := 0xb8d598b4d8069cb020f70434a39626914124eaf81c21a2b774d1a07494038606

def holdersSpace : Bytes32 := 0xcfdf14a12159e7dc0ac4898346410196c215ca314d46e9a93cef524c6551a550

def lockDigests : List (Bytes × Bytes32) :=
  [("truthlinked.staking.positions".toUTF8.toList, positionsSpace),
    ("truthlinked.staking.holders".toUTF8.toList, holdersSpace),
    ("truthlinked-staking-v1".toUTF8.toList, 0x0348b5d1fba38117a16fc2ae9a12eb287305d16a9c49f792f52ae1952bb9a51d),
    (slotInput positionsSpace ["map:exists".toUTF8.toList, ofBytes32 1],
      0x05158ddf5dfefec37683a8d5778798df5272e6a2f4fbf61dc39dd79e0aeb67a2),
    (slotInput positionsSpace ["map:value".toUTF8.toList, ofBytes32 1],
      0x19c54da4aa3733180600043f4b370441ace0d773429890bf5862d13750023692),
    (slotInput positionsSpace ["map:exists".toUTF8.toList, ofBytes32 2],
      0x3644d62b75aa915bcab1e42777f79cc21077fb2dd040ed4bb6bbecf258add836),
    (slotInput positionsSpace ["map:value".toUTF8.toList, ofBytes32 2],
      0x41bb439b7c10ade6e01d084d684595465135a9b54006a824414e60a76a19d30d),
    (slotInput holdersSpace ["vec:len".toUTF8.toList],
      0x4846f1859fd4143ca0790f5c118b572bf2e9927391ed5042a6dc5b0c80fe515e),
    (slotInput holdersSpace ["vec:elem".toUTF8.toList, leBytes 8 0],
      0x9ded00d7153d561e3c1f11442c8e60974e54d8a577f00f031cafa84af965f1b6),
    (slotInput holdersSpace ["vec:elem".toUTF8.toList, leBytes 8 1],
      0xbab42fb2e301cb9b895bc98e88e1fae8703bd9a6e82f43d44b3bb199a203a90a),
    (slotInput holdersSpace ["vec:elem".toUTF8.toList, leBytes 8 2],
      0xc39f90ebfbc0461bb8f52d7d01aaf1c37f42909c159921aae9cebd144b85bf33),
    (slotInput holdersSpace ["vec:elem".toUTF8.toList, leBytes 8 3],
      0x4bd0b35d3d13d045ef68081acd4a0f75faadee4dab5cce3b3903465741cfbc58)]

/-- The third-party code, on the inputs that occur here. -/
def lockEnv : Env :=
  { sampleEnv with sha256 := fun bs => ((lockDigests.find? fun e => decide (e.1 = bs)).map Prod.snd).getD 0 }

def sampleCall (method : String) (caller : AccountId) (blocks value height : ℕ) : Call :=
  ⟨caller, sel method ++ ofBytes32 caller ++ leBytes 8 blocks, value, height⟩

def genesisCell : CellAccount where
  cellId := stakingSystemCellId lockEnv
  owner := stakingSystemCellId lockEnv
  bytecode := []
  storage := ∅
  balance := 0
  rentDeposit := 0
  isToken := false
  tokenConfig := none
  createdAt := 0
  upgradedAt := none
  lastRentPaidHeight := 0
  rentGraceBlocks := 0
  pendingOwner := none
  isImmutable := true
  declaredReads := []
  declaredWrites := []
  commutativeKeys := []
  storageKeySpecs := []
  oracleSchemaIds := []
  governanceProposal := none
  manifestVersion := 1
  manifestHash := 0

/-- Two owners lock, one adds to its position and the other unlocks. -/
def sampleCalls : List Call :=
  [sampleCall "lock" 1 10 500 0, sampleCall "lock" 2 5 300 1, sampleCall "lock" 1 20 100 2,
    sampleCall "unlock" 2 0 0 6]

example : ∀ call ∈ sampleCalls, call.OfPosition := by decide +kernel

/-- The condition at the sample calls. -/
theorem sound_sample :
    genesisCell.storage = ∅ ∧ NoCollision lockEnv [1, 2].toFinset sampleCalls.length ∧
      Along (receive lockEnv) (Careful lockEnv) genesisCell sampleCalls ∧
      Sound lockEnv [1, 2].toFinset (run (receive lockEnv) genesisCell (sampleCalls.take 4)) := by
  have hcol : NoCollision lockEnv [1, 2].toFinset sampleCalls.length := noCollision_of_nodup (by decide +kernel)
  have hcareful : Along (receive lockEnv) (Careful lockEnv) genesisCell sampleCalls :=
    ⟨fun _ _ => ⟨.inr (by decide +kernel), by decide +kernel⟩, fun _ _ =>
      ⟨.inr (by decide +kernel), by decide +kernel⟩,
      fun _ _ => ⟨.inl (by decide +kernel), by decide +kernel⟩,
      fun _ _ => ⟨.inl (by decide +kernel), by decide +kernel⟩, trivial⟩
  have hcallers : ∀ call ∈ sampleCalls, call.caller ∈ [1, 2].toFinset := by decide +kernel
  have hpos : ∀ call ∈ sampleCalls, call.OfPosition := by decide +kernel
  exact ⟨rfl, hcol, hcareful, sound_of_careful rfl hcol hcallers hpos hcareful 4⟩

def relockCalls : List Call :=
  [sampleCall "lock" 1 10 500 0, sampleCall "unlock" 1 0 0 10, sampleCall "lock" 1 10 500 20]

/-- The owner is listed twice. -/
theorem relocked_twice :
    ¬ ∀ (env : Env) (owners : Finset AccountId) (cell : CellAccount) (calls : List Call), cell.storage = ∅ →
      NoCollision env owners calls.length → (∀ call ∈ calls, call.caller ∈ owners) →
      (∀ call ∈ calls, call.OfPosition) → Sound env owners (run (receive env) cell calls) := by
  intro h
  have hcallers : ∀ call ∈ relockCalls, call.caller ∈ [1].toFinset := by decide +kernel
  have hpos : ∀ call ∈ relockCalls, call.OfPosition := by decide +kernel
  have hsound := h lockEnv [1].toFinset genesisCell relockCalls rfl (noCollision_of_nodup (by decide +kernel))
    hcallers hpos
  have htwice : holdersIn lockEnv (run (receive lockEnv) genesisCell relockCalls).storage = [1, 1] := by
    decide +kernel
  have hnodup := hsound.nodup
  rw [htwice] at hnodup
  exact absurd hnodup (by decide)

end TruthLinked.Ledger.StakingPositions
