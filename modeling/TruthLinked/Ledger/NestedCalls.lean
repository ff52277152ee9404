import TruthLinked.Axiom.HostFree
import TruthLinked.Axiom.HostMap
import TruthLinked.Ledger.VmCalls

/-! # What becomes of a call between cells

A run on the host that also keeps a record of what happens, in order: the calls of cells, with the storage
they begin on, and the writes (`callTrace`). The record says nothing about the run that the run does not do
(`recording_maps`). A write that a successful call leaves should be in the callee's storage for the rest of
the transaction and after it (`Lasting`). A callee runs on a copy of its storage that nobody reads again, so
that this holds exactly when these writes change nothing (`Idle`). -/

namespace TruthLinked.Ledger.NestedCalls

open Core.Types Runtime.Cells Axiom.Bytecode Axiom.Machine Axiom.HostMap Ledger.Model Ledger.Execution
open Ledger.SystemCells Ledger.ComputeSpec Governance.Types Ledger.Executor Ledger.Mcp Ledger.MergeAgreement
open Ledger.VmCalls Ledger.Slots

/-! ## The record -/

/-- What happens in a transaction. Every call of a cell has a number of its own, the outermost one the number
0. -/
inductive Happening where
  | entered (call : ℕ) (cell : AccountId) (storage : Map Bytes32 Bytes32)
  | stored (call : ℕ) (cell : AccountId) (key : Bytes32) (value : Option Bytes32)
  | returned (call : ℕ) (cell : AccountId) (success : Bool)
  deriving DecidableEq

/-- The number of the call. -/
def Happening.call : Happening → ℕ
  | .entered n _ _ | .stored n _ _ _ | .returned n _ _ => n

/-- The host of a call, with a record of what happens; `trace` is what a call of another cell adds to it. -/
def recording (H : Host HostState) (n : ℕ) (self : AccountId)
    (trace : AccountId → Bytes → ℕ → ℕ → List Happening → List Happening) :
    Host (HostState × List Happening) where
  storageRead k := beside (H.storageRead k)
  storageWrite k v s := ((H.storageWrite k v s.1).1,
    ((H.storageWrite k v s.1).2, s.2 ++ [.stored n self k (some v)]))
  storageDelete k s := ((H.storageDelete k s.1).1, ((H.storageDelete k s.1).2, s.2 ++ [.stored n self k none]))
  caller s := H.caller s.1
  owner s := H.owner s.1
  cellId s := H.cellId s.1
  height s := H.height s.1
  timestamp s := H.timestamp s.1
  value s := H.value s.1
  calldata s := H.calldata s.1
  setReturnData d := beside (H.setReturnData d)
  emitLog l := beside (H.emitLog l)
  callCell c d v g s := ((H.callCell c d v g s.1).1, ((H.callCell c d v g s.1).2, trace c d v g s.2))
  sha256 := H.sha256
  accordRequest u m b := beside (H.accordRequest u m b)
  accordRead r := beside (H.accordRead r)
  tokenBalance t a := beside (H.tokenBalance t a)
  tokenTransfer t a b n := beside (H.tokenTransfer t a b n)
  tokenMint t a n := beside (H.tokenMint t a n)
  tokenBurn t a n := beside (H.tokenBurn t a n)
  tokenFreeze t a := beside (H.tokenFreeze t a)
  tokenThaw t a := beside (H.tokenThaw t a)
  maxReturnData := H.maxReturnData
  maxLogData := H.maxLogData
  maxLogTopics := H.maxLogTopics
  maxCallDepth := H.maxCallDepth

theorem recording_maps (H : Host HostState) (n : ℕ) (self : AccountId)
    (trace : AccountId → Bytes → ℕ → ℕ → List Happening → List Happening) :
    Maps Prod.fst (recording H n self trace) H := by
  constructor <;> intros <;> first | rfl | exact mirrors_beside _

/-- What a cross-cell call is answered, with `levels` more levels under it. -/
def answer (env : Env) (w : World) (cells : CellState) (levels : ℕ) (ctx : CallContext) (depth : ℕ) :
    AccountId → Bytes → ℕ → ℕ → Except AxiomError CrossCellResult :=
  match levels with
  | 0 => fun _ _ _ _ => .error .callDepthExceeded
  | levels + 1 => fun cellId calldata value gas =>
    match cells.cells[cellId]? with
    | none => .error (.crossCellFailed "cell not found")
    | some cell =>
      let r := executeAxiomAt env w cells levels cell.bytecode cell.storage
        { cellId := cell.cellId, owner := cell.owner, caller := ctx.caller, height := ctx.height,
          timestamp := ctx.timestamp, value := value, calldata := calldata } gas (depth + 1)
      .ok ⟨r.success, r.returnData, r.gasUsed⟩

theorem executeAxiomAt_eq (env : Env) (w : World) (cells : CellState) (levels : ℕ) (bytecode : Bytes)
    (storage : Map Bytes32 Bytes32) (ctx : CallContext) (gasLimit depth : ℕ) :
    executeAxiomAt env w cells levels bytecode storage ctx gasLimit depth =
      runAxiom env w bytecode storage ctx gasLimit depth (answer env w cells levels ctx depth) := by
  cases levels <;> rfl

/-- The record after a run of a cell. -/
def traceRun (env : Env) (w : World) (cell : CellAccount) (ctx : CallContext) (gasLimit depth : ℕ)
    (call : AccountId → Bytes → ℕ → ℕ → Except AxiomError CrossCellResult) (n : ℕ) (self : AccountId)
    (trace : AccountId → Bytes → ℕ → ℕ → List Happening → List Happening) (log : List Happening) :
    List Happening :=
  match decode cell.bytecode with
  | .error _ => log
  | .ok code =>
    (execute (recording (axiomHost env w ctx call) n self trace) code (⟨cell.storage, [], [], [], []⟩, log)
      gasLimit depth).2.2

/-- The record after a call of a cell, with `levels` more levels under it and `trace` what these add. -/
def traceCell (env : Env) (w : World) (cells : CellState) (caller : AccountId) (height timestamp levels depth : ℕ)
    (trace : AccountId → Bytes → ℕ → ℕ → List Happening → List Happening) (callee : AccountId) (calldata : Bytes)
    (value gas : ℕ) (log : List Happening) : List Happening :=
  match cells.cells[callee]? with
  | none => log
  | some cell =>
    let ctx := ⟨cell.cellId, cell.owner, caller, height, timestamp, value, calldata⟩
    traceRun env w cell ctx gas depth (answer env w cells levels ctx depth) log.length callee trace
        (log ++ [.entered log.length callee cell.storage]) ++
      [.returned log.length callee
        (executeAxiomAt env w cells levels cell.bytecode cell.storage ctx gas depth).success]

/-- The record after a call of a cell and the calls under it. -/
def traceCall (env : Env) (w : World) (cells : CellState) (caller : AccountId) (height timestamp : ℕ) :
    ℕ → ℕ → AccountId → Bytes → ℕ → ℕ → List Happening → List Happening
  | 0, depth => traceCell env w cells caller height timestamp 0 depth fun _ _ _ _ log => log
  | levels + 1, depth => traceCell env w cells caller height timestamp (levels + 1) depth
    (traceCall env w cells caller height timestamp levels (depth + 1))

/-! ## What the record says -/

/-- The writes of a call itself, in order. -/
def writesOf (n : ℕ) (log : List Happening) : List (Bytes32 × Option Bytes32) :=
  log.filterMap fun
    | .stored m _ key value => if m = n then some (key, value) else none
    | _ => none

theorem writesOf_append (n : ℕ) (log log' : List Happening) :
    writesOf n (log ++ log') = writesOf n log ++ writesOf n log' := List.filterMap_append

theorem writesOf_stored (n m : ℕ) (c : AccountId) (k : Bytes32) (v : Option Bytes32) :
    writesOf n [.stored m c k v] = if m = n then [(k, v)] else [] := by
  unfold writesOf
  rw [List.filterMap_cons]
  by_cases h : m = n <;> simp [h]

theorem writesOf_of_lt {n : ℕ} {log : List Happening} (h : ∀ e ∈ log, e.call < n) : writesOf n log = [] := by
  refine List.filterMap_eq_nil_iff.mpr fun e he => ?_
  cases e with
  | stored m c k v => exact if_neg (Nat.ne_of_lt (h _ he))
  | _ => rfl

/-- A record: the calls in it are numbered by the place where they begin, on the storage of the cell. -/
structure Sound (cells : CellState) (log : List Happening) : Prop where
  numbered : ∀ e ∈ log, e.call < log.length
  begun : ∀ n c storage, .entered n c storage ∈ log →
    ∃ cell : CellAccount, cells.cells[c]? = some cell ∧ cell.storage = storage

/-- A record that goes on: to the calls in it nothing is added. -/
structure Extends (cells : CellState) (log log' : List Happening) : Prop where
  sound : Sound cells log'
  length_le : log.length ≤ log'.length
  writes : ∀ n < log.length, writesOf n log' = writesOf n log

section Extends
variable {cells : CellState} {log log' log'' : List Happening} {n : ℕ} {c : AccountId}

theorem Extends.refl (h : Sound cells log) : Extends cells log log := ⟨h, le_rfl, fun _ _ => rfl⟩

theorem Extends.trans (h : Extends cells log log') (h' : Extends cells log' log'') : Extends cells log log'' :=
  ⟨h'.sound, h.length_le.trans h'.length_le, fun n hn =>
    (h'.writes n (hn.trans_le h.length_le)).trans (h.writes n hn)⟩

theorem Sound.append (h : Sound cells log) {e : Happening} (hcall : e.call ≤ log.length)
    (hbegun : ∀ n c storage, e = .entered n c storage →
      ∃ cell : CellAccount, cells.cells[c]? = some cell ∧ cell.storage = storage) : Sound cells (log ++ [e]) := by
  constructor
  · intro f hf
    rw [List.length_append, List.length_singleton]
    rcases List.mem_append.mp hf with hf | hf
    · exact Nat.lt_succ_of_lt (h.numbered f hf)
    · rw [List.mem_singleton.mp hf]
      exact Nat.lt_succ_of_le hcall
  · intro n c storage hmem
    rcases List.mem_append.mp hmem with hmem | hmem
    · exact h.begun n c storage hmem
    · exact hbegun n c storage (List.mem_singleton.mp hmem).symm

theorem extends_entered (h : Sound cells log) {cell : CellAccount} (hcell : cells.cells[c]? = some cell) :
    Extends cells log (log ++ [.entered log.length c cell.storage]) := by
  refine ⟨h.append le_rfl fun n c' storage he => ?_, by simp, fun n _ => ?_⟩
  · cases he
    exact ⟨cell, hcell, rfl⟩
  · rw [writesOf_append]
    exact List.append_nil _

theorem extends_stored (h : Extends cells log log') (hn : log.length < log'.length) (k : Bytes32)
    (v : Option Bytes32) : Extends cells log (log' ++ [.stored log.length c k v]) := by
  refine ⟨h.sound.append hn.le (fun n c' storage he => by cases he), ?_, fun n hlt => ?_⟩
  · rw [List.length_append]
    exact h.length_le.trans (Nat.le_add_right _ _)
  · rw [writesOf_append, h.writes n hlt, writesOf_stored, if_neg (Nat.ne_of_gt hlt), List.append_nil]

theorem extends_returned (h : Extends cells log log') (hn : log.length < log'.length) (success : Bool) :
    Extends cells log (log' ++ [.returned log.length c success]) := by
  refine ⟨h.sound.append hn.le (fun n c' storage he => by cases he), ?_, fun n hlt => ?_⟩
  · rw [List.length_append]
    exact h.length_le.trans (Nat.le_add_right _ _)
  · rw [writesOf_append, h.writes n hlt]
    exact List.append_nil _

end Extends

/-! ## A call keeps its record -/

section Keeps
variable {env : Env} {w : World} {cells : CellState} {log : List Happening} {ctx : CallContext}
  {call : AccountId → Bytes → ℕ → ℕ → Except AxiomError CrossCellResult} {self : AccountId}
  {trace : AccountId → Bytes → ℕ → ℕ → List Happening → List Happening}

/-- The host of a call begun at the end of `log`, and the record so far. -/
structure Recorded (cells : CellState) (log : List Happening) (s : HostState × List Happening) : Prop where
  goes_on : Extends cells log s.2
  begun : log.length < s.2.length
  writes : s.1.storageDiff = writesOf log.length s.2

theorem Recorded.same {s : HostState × List Happening} (h : Recorded cells log s) {t : HostState}
    (ht : t.storageDiff = s.1.storageDiff) : Recorded cells log (t, s.2) :=
  ⟨h.goes_on, h.begun, ht.trans h.writes⟩

theorem Recorded.stored {s : HostState × List Happening} (h : Recorded cells log s) {t : HostState} {k : Bytes32}
    {v : Option Bytes32} (ht : t.storageDiff = s.1.storageDiff ++ [(k, v)]) :
    Recorded cells log (t, s.2 ++ [.stored log.length self k v]) := by
  refine ⟨extends_stored h.goes_on h.begun k v, ?_, ?_⟩
  · rw [List.length_append]
    exact h.begun.trans_le (Nat.le_add_right _ _)
  · rw [ht, h.writes, writesOf_append, writesOf_stored, if_pos rfl]

theorem accordRequest_storageDiff (env : Env) (w : World) (ctx : CallContext) (url method body : Bytes)
    (h : HostState) : (accordRequest env w ctx url method body h).2.storageDiff = h.storageDiff := by
  unfold accordRequest
  split
  · dsimp only
    split_ifs <;> rfl
  · rfl

theorem recorded_keeps
    (htrace : ∀ c d v g log', Sound cells log' → Extends cells log' (trace c d v g log')) :
    Axiom.HostFree.Host.Keeps (recording (axiomHost env w ctx call) log.length self trace) (Recorded cells log)
      fun _ => True where
  storageRead _ _ _ h := h.same rfl
  storageWrite _ _ _ _ h := h.stored rfl
  storageDelete _ _ _ h := h.stored rfl
  setReturnData _ _ h := h.same rfl
  emitLog _ _ h := h.same rfl
  callCell c d v g s h := by
    have hext := htrace c d v g s.2 h.goes_on.sound
    refine ⟨h.goes_on.trans hext, h.begun.trans_le hext.length_le, ?_⟩
    exact h.writes.trans (hext.writes _ h.begun).symm
  accordRequest u m b s h := h.same (accordRequest_storageDiff env w ctx u m b s.1)
  accordRead _ _ h := h.same rfl
  tokenBalance _ _ _ h := h.same rfl
  tokenTransfer _ _ _ _ _ h := h.same rfl
  tokenMint _ _ _ _ h := h.same rfl
  tokenBurn _ _ _ _ h := h.same rfl
  tokenFreeze _ _ _ h := h.same rfl
  tokenThaw _ _ _ h := h.same rfl

theorem traceRun_spec (env : Env) (w : World) (ctx : CallContext)
    (call : AccountId → Bytes → ℕ → ℕ → Except AxiomError CrossCellResult) (hlog : Sound cells log)
    {cell : CellAccount} (hcell : cells.cells[self]? = some cell)
    (htrace : ∀ c d v g log', Sound cells log' → Extends cells log' (trace c d v g log')) (gasLimit depth : ℕ) :
    let log' := traceRun env w cell ctx gasLimit depth call log.length self trace
      (log ++ [.entered log.length self cell.storage])
    Extends cells log log' ∧ log.length < log'.length ∧
      writesOf log.length log' =
        (runAxiom env w cell.bytecode cell.storage ctx gasLimit depth call).storageDiff := by
  have hstart := extends_entered hlog hcell
  have hnew : writesOf log.length (log ++ [.entered log.length self cell.storage]) = [] := by
    rw [writesOf_append, writesOf_of_lt hlog.numbered]
    rfl
  have hlt : log.length < (log ++ [Happening.entered log.length self cell.storage]).length := by simp
  unfold traceRun runAxiom
  cases decode cell.bytecode with
  | error e => exact ⟨hstart, hlt, hnew⟩
  | ok code =>
    have hkept : Recorded cells log (execute (recording (axiomHost env w ctx call) log.length self trace) code
        (⟨cell.storage, [], [], [], []⟩, log ++ [.entered log.length self cell.storage]) gasLimit depth).2 :=
      Axiom.HostFree.execute_keeps (recorded_keeps htrace) code (fun _ _ _ _ _ _ _ _ _ => trivial)
        ⟨hstart, hlt, hnew.symm⟩ gasLimit depth
    have hplain := execute_map (recording_maps (axiomHost env w ctx call) log.length self trace) code
      (⟨cell.storage, [], [], [], []⟩, log ++ [.entered log.length self cell.storage]) gasLimit depth
    refine ⟨hkept.goes_on, hkept.begun, ?_⟩
    dsimp only at hplain ⊢
    rw [hplain]
    exact hkept.writes.symm

theorem traceCell_spec (htrace : ∀ c d v g log', Sound cells log' → Extends cells log' (trace c d v g log'))
    (caller : AccountId) (height timestamp levels depth : ℕ) (callee : AccountId)
    (calldata : Bytes) (value gas : ℕ)
    (hlog : Sound cells log) :
    Extends cells log
        (traceCell env w cells caller height timestamp levels depth trace callee calldata value gas log) ∧
      ∀ cell : CellAccount, cells.cells[callee]? = some cell →
        writesOf log.length
            (traceCell env w cells caller height timestamp levels depth trace callee calldata value gas log) =
          (executeAxiomAt env w cells levels cell.bytecode cell.storage
            ⟨cell.cellId, cell.owner, caller, height, timestamp, value, calldata⟩ gas depth).storageDiff := by
  unfold traceCell
  cases hcell : cells.cells[callee]? with
  | none => exact ⟨.refl hlog, fun cell h => by cases h⟩
  | some cell =>
    obtain ⟨hext, hlt, hwrites⟩ := traceRun_spec env w
      ⟨cell.cellId, cell.owner, caller, height, timestamp, value, calldata⟩
      (answer env w cells levels ⟨cell.cellId, cell.owner, caller, height, timestamp, value, calldata⟩ depth)
      hlog hcell htrace gas depth
    refine ⟨extends_returned hext hlt _, fun cell' h => ?_⟩
    obtain rfl := Option.some.inj h
    rw [writesOf_append, hwrites, executeAxiomAt_eq]
    exact List.append_nil _

/-- **A call**: its record goes on, and says what it writes. -/
theorem traceCall_spec (env : Env) (w : World) (caller : AccountId) (height timestamp levels depth : ℕ)
    (callee : AccountId) (calldata : Bytes) (value gas : ℕ) (hlog : Sound cells log) :
    Extends cells log (traceCall env w cells caller height timestamp levels depth callee calldata value gas log) ∧
      ∀ cell : CellAccount, cells.cells[callee]? = some cell →
        writesOf log.length
            (traceCall env w cells caller height timestamp levels depth callee calldata value gas log) =
          (executeAxiomAt env w cells levels cell.bytecode cell.storage
            ⟨cell.cellId, cell.owner, caller, height, timestamp, value, calldata⟩ gas depth).storageDiff := by
  induction levels generalizing depth callee calldata value gas log with
  | zero =>
    exact traceCell_spec (fun _ _ _ _ _ h => .refl h) caller height timestamp 0 depth callee calldata value
      gas hlog
  | succ levels ih =>
    exact traceCell_spec (fun c d v g log' h => (ih (depth + 1) c d v g h).1) caller height
      timestamp (levels + 1) depth callee calldata value gas hlog

end Keeps

/-! ## Writes that are left -/

/-- The record of a transaction that calls a cell. A system cell calls no other. -/
def callTrace (env : Env) (w : World) (tx : Transaction) (cellId : AccountId) (calldata : Bytes)
    (value gasLimit : ℕ) : List Happening :=
  if isSystemCell env cellId then []
  else
    traceCall env w w.state.cells tx.sender w.state.staking.currentHeight tx.timestamp 500 1 cellId calldata value
      gasLimit []

/-- A call from another cell returned success and left `k := v` in the storage of `c`: the last write there,
but for writes of calls that failed. -/
def Leaves (log : List Happening) (n : ℕ) (c : AccountId) (k v : Bytes32) : Prop :=
  n ≠ 0 ∧ ∃ before after, log = before ++ .stored n c k (some v) :: after ∧ .returned n c true ∈ after ∧
    ∀ m v', .stored m c k v' ∈ after → .returned m c true ∉ after

/-- After the return of call `n` a call of `c` begins on the storage. -/
def CalledAgain (log : List Happening) (n : ℕ) (c : AccountId) (storage : Map Bytes32 Bytes32) : Prop :=
  ∃ before after m, log = before ++ .returned n c true :: after ∧ .entered m c storage ∈ after

/-- What calls leave is there after the transaction, and for the calls to come. -/
def Lasting (log : List Happening) (cells : CellState) : Prop :=
  ∀ n c k v, Leaves log n c k v →
    storedAt cells c k = some v ∧ ∀ storage, CalledAgain log n c storage → storage[k]? = some v

/-- What a slot holds without the calls between cells: what it held before the transaction, with the writes of
the outermost call to its own cell. -/
def without (log : List Happening) (cells : CellState) (root c : AccountId) (k : Bytes32) : Option Bytes32 :=
  if c = root then overlaid (writesOf 0 log) k (storedAt cells c k) else storedAt cells c k

/-- What calls leave is what the slots hold without them, and where the cell is called again, what they held
before the transaction. -/
def Idle (log : List Happening) (cells : CellState) (root : AccountId) : Prop :=
  ∀ n c k v, Leaves log n c k v →
    without log cells root c k = some v ∧
      ∀ storage, CalledAgain log n c storage → storedAt cells c k = some v

section Theorem
variable {env : Env} {w : World} {tx : Transaction} {cellId : AccountId} {calldata : Bytes} {value gasLimit : ℕ}

theorem not_leaves_nil (n : ℕ) (c : AccountId) (k v : Bytes32) : ¬ Leaves [] n c k v := by
  rintro ⟨-, before, after, h, -⟩
  exact List.cons_ne_nil _ _ (List.append_eq_nil_iff.mp h.symm).2

theorem sound_nil (cells : CellState) : Sound cells [] :=
  ⟨fun _ h => absurd h List.not_mem_nil, fun _ _ _ h => absurd h List.not_mem_nil⟩

theorem storedAt_runTransaction (hintent : tx.intent = .callCell cellId calldata value gasLimit)
    (hsystem : isSystemCell env cellId = false) (hok : (runTransaction env tx w).1.isOk = true) (c : AccountId)
    (k : Bytes32) :
    storedAt (runTransaction env tx w).2.state.cells c k =
      without (callTrace env w tx cellId calldata value gasLimit) w.state.cells cellId c k := by
  obtain ⟨d, hd, hworld⟩ := Runs.runTransaction_isOk hok
  obtain ⟨account, d₁, f, hcheck, h1, hf, rfl⟩ := compute_eq_ok hd
  rw [hintent] at h1
  obtain ⟨cell, root, hcell, -, hroot, rfl⟩ := computeIntent_vm hsystem h1
  have hwrites := (traceCall_spec env w tx.sender w.state.staking.currentHeight tx.timestamp 500 1 cellId calldata
    value gasLimit (sound_nil w.state.cells)).2 cell hcell
  rw [hworld, storedAt_applied (silent_runOf ..) queued_runOf hcell hroot]
  unfold without callTrace
  rw [hsystem, if_neg Bool.false_ne_true]
  exact if_congr Iff.rfl (congrArg (overlaid · k (storedAt w.state.cells c k)) hwrites.symm) rfl

/-- **Calls between cells**: what a successful call leaves lasts exactly when it changes nothing. -/
theorem lasting_iff_idle (hintent : tx.intent = .callCell cellId calldata value gasLimit)
    (hok : (runTransaction env tx w).1.isOk = true) :
    Lasting (callTrace env w tx cellId calldata value gasLimit) (runTransaction env tx w).2.state.cells ↔
      Idle (callTrace env w tx cellId calldata value gasLimit) w.state.cells cellId := by
  cases hsystem : isSystemCell env cellId with
  | true =>
    have hnil : callTrace env w tx cellId calldata value gasLimit = [] := if_pos hsystem
    rw [hnil]
    exact ⟨fun _ n c k v h => absurd h (not_leaves_nil n c k v), fun _ n c k v h =>
      absurd h (not_leaves_nil n c k v)⟩
  | false =>
    have hsound : Sound w.state.cells (callTrace env w tx cellId calldata value gasLimit) := by
      rw [callTrace, hsystem, if_neg Bool.false_ne_true]
      exact (traceCall_spec env w tx.sender _ tx.timestamp 500 1 cellId calldata
        value gasLimit (sound_nil _)).1.sound
    -- a later call begins on the storage that its cell had before the transaction
    have hagain : ∀ {n c storage} (k : Bytes32),
        CalledAgain (callTrace env w tx cellId calldata value gasLimit) n c
        storage → storage[k]? = storedAt w.state.cells c k := by
      rintro n c storage k ⟨before, after, m, hlog, hmem⟩
      obtain ⟨cell, hcell, rfl⟩ :=
        hsound.begun m c storage (hlog ▸ List.mem_append_right _ (List.mem_cons_of_mem _ hmem))
      rw [storedAt, hcell]
      rfl
    unfold Lasting Idle
    simp only [storedAt_runTransaction hintent hsystem hok]
    refine forall_congr' fun n => forall_congr' fun c => forall_congr' fun k => forall_congr' fun v =>
      imp_congr_right fun _ => and_congr_right fun _ => forall_congr' fun storage => ?_
    exact ⟨fun h hc => (hagain k hc).symm.trans (h hc), fun h hc => (hagain k hc).trans (h hc)⟩

end Theorem

/-! ## A sample call

The hash functions and the serialised form are those of the node on the inputs that occur here. -/

/-- The SHA-256 digests of the inputs that occur here, beside those of `paramDigest`. -/
def callDigests : List (String × Bytes32) :=
  [("truthlinked-governance-v1", 0x191843cac9e459553f94821e347e2b20eaf7dfb1af3835e5884c2880eb4f215f),
    ("truthlinked-name-registry-v1", 0x29f9359b77a6bb3c4fb5ba4ce225d57fcf666bab958c5d68b68eb37871c00f7e),
    ("truthlinked-oracle-governance-v1", 0x225b3f4c82f8d9ce49e9f39fb5f16ebde243e01ef2efb8d9b4b260c737e1bae7),
    ("truthlinked-staking-v1", 0x0348b5d1fba38117a16fc2ae9a12eb287305d16a9c49f792f52ae1952bb9a51d),
    ("truthlinked-token-governance-v1", 0x0dbca3ee37934cc2c3a356ca0a60545f70e7748235a462c411ef08f6f365ac3b),
    ("truthlinked-treasury-v1", 0xe79e57ad2f265294226975057021bea65dc948aa10d181704848ff291fe1fae1),
    ("truthlinked-wtrth-v1", 0xf78c324351c07398964a5fe388cd0b0afde37be056075886dc52d4e120905257),
    ("truthlinked.param.v1limits.max_calldata_size",
      0x32b2ca6eb5d4e1440d021b9452546d3e838f63904068dce20e7278b5a42502bf),
    ("truthlinked.param.v1limits.max_gas_per_tx",
      0x684b664e3ab335816b2dae2a52339c48392c26cb75aad486e3461c1df14a84c9),
    ("truthlinked.param.v1name.expiration_blocks",
      0xb4e66ef4dd1269318d317fa25a4d446a184e85245dd4652f4d28ab114cc5959e),
    ("truthlinked.param.v1token.authority_approval_threshold",
      0x4549f1c904c75a1a39968c7e8659d638094512ce6bf56f95b6e2104023ee487f)]

/-- SHA-256 on these inputs. -/
def callSha256 (bs : Bytes) : Bytes32 :=
  ((callDigests.find? fun e => decide (e.1.toUTF8.toList = bs)).map Prod.snd).getD (paramDigest bs)

def sampleCall : Transaction := ⟨1, .callCell 3 [] 0 10000, [], 1, 0, 7, 10⟩

/-- The serialised form of a transaction that calls a cell. -/
def callBytes (tx : Transaction) : Bytes :=
  match tx.intent with
  | .callCell cellId calldata value gasLimit =>
    ofBytes32 tx.sender ++ [20] ++ ofBytes32 cellId ++ varint 10 calldata.length ++ calldata ++ varint 19 value ++
      varint 10 gasLimit ++ varint 10 tx.signature.length ++ tx.signature ++ varint 10 tx.nonce ++
      varint 10 tx.timestamp ++ ofBytes32 tx.genesisFingerprint ++ varint 10 tx.expirationHeight
  | _ => []

/-- The third-party code, on the inputs that occur here. -/
def callEnv : Env :=
  { sampleEnv with
    blake3 := fun _ => 0x0cc4cba11d569180adf69e189fa5d5934180e90aed4006e87ff08878610576ba
    serialize := callBytes
    sha256 := callSha256 }

/-- A cell with a program and an empty storage. -/
def programCell (cellId : AccountId) (code : CellBytecode) : CellAccount where
  cellId := cellId
  owner := 1
  bytecode := encode code
  storage := ∅
  balance := 0
  rentDeposit := 0
  isToken := false
  tokenConfig := none
  createdAt := 0
  upgradedAt := none
  lastRentPaidHeight := 0
  rentGraceBlocks := 0
  pendingOwner := none
  isImmutable := false
  declaredReads := []
  declaredWrites := []
  commutativeKeys := []
  storageKeySpecs := []
  oracleSchemaIds := []
  governanceProposal := none
  manifestVersion := 1
  manifestHash := 0

/-- Load the constant 4 into register 2, call the cell it names, halt. -/
def callerCode : CellBytecode := ⟨[ofBytes32 4], [0x40, 2, 0, 0, 0xD3, 2, 0, 0x35]⟩

def calleeCode : CellBytecode := ⟨[], [0x41, 1, 7, 0x51, 0, 1, 0x35]⟩

def callWorld : World where
  state :=
    { sampleState with
      accounts := fromList [(1, ⟨[1], 1000000, 1000000, 0, []⟩)]
      cells := ⟨fromList [(3, programCell 3 callerCode), (4, programCell 4 calleeCode)], ∅, ∅⟩ }
  globals :=
    { sampleWorld.globals with
      paramCache := fromList
        [(paramKey callSha256 "limits.max_gas_per_tx", encodeU64 10000),
          (paramKey callSha256 "limits.max_calldata_size", encodeU64 100),
          (paramKey callSha256 "fees.tx_byte", encodeU64 1),
          (paramKey callSha256 "cu.per_tlkd", encodeU64 1000000000)] }

/-- What the callee stores. -/
def stored : Bytes32 := 0x0700000000000000000000000000000000000000000000000000000000000000

theorem callTrace_sampleCall :
    callTrace callEnv callWorld sampleCall 3 [] 0 10000 =
      [.entered 0 3 ∅, .entered 1 4 ∅, .stored 1 4 0 (some stored), .returned 1 4 true, .returned 0 3 true] := by
  decide +kernel

theorem sampleCall_isOk : (runTransaction callEnv sampleCall callWorld).1.isOk = true := by decide +kernel

/-- The condition at the sample call. -/
theorem lasting_iff_idle_sample :
    (runTransaction callEnv sampleCall callWorld).1.isOk = true ∧
      (Lasting (callTrace callEnv callWorld sampleCall 3 [] 0 10000)
          (runTransaction callEnv sampleCall callWorld).2.state.cells ↔
        Idle (callTrace callEnv callWorld sampleCall 3 [] 0 10000) callWorld.state.cells 3) :=
  ⟨sampleCall_isOk, lasting_iff_idle rfl sampleCall_isOk⟩

/-- What the callee stores is lost. -/
theorem callee_write_lost :
    ¬ ∀ (env : Env) (w : World) (tx : Transaction) (cellId : AccountId) (calldata : Bytes) (value gasLimit : ℕ),
      tx.intent = .callCell cellId calldata value gasLimit → (runTransaction env tx w).1.isOk = true →
      Lasting (callTrace env w tx cellId calldata value gasLimit) (runTransaction env tx w).2.state.cells := by
  intro h
  have hlasting := h callEnv callWorld sampleCall 3 [] 0 10000 rfl sampleCall_isOk
  rw [callTrace_sampleCall] at hlasting
  have hleaves : Leaves [.entered 0 3 ∅, .entered 1 4 ∅, .stored 1 4 0 (some stored), .returned 1 4 true,
      .returned 0 3 true] 1 4 0 stored :=
    ⟨one_ne_zero, [.entered 0 3 ∅, .entered 1 4 ∅], [.returned 1 4 true, .returned 0 3 true],
      rfl, by simp, by simp⟩
  have hnone : storedAt (runTransaction callEnv sampleCall callWorld).2.state.cells 4 0 =
      none := by decide +kernel
  have hstored := (hlasting 1 4 0 stored hleaves).1
  rw [hnone] at hstored
  cases hstored

end TruthLinked.Ledger.NestedCalls
