import TruthLinked.Axiom.Machine
import TruthLinked.Lib.Wp

/-! # A host and its shadow

Two hosts whose methods give the same answers, the state of the one read off the state of the other: the VM
runs alike on both (`execute_map`). So a host may keep a record of its own beside the state of another. -/

namespace TruthLinked.Axiom.HostMap

open Core.Types Axiom.Word Axiom.Bytecode Axiom.Opcode Axiom.Machine Lib.Wp

variable {σ τ α β : Type}

/-- A method that leaves the record alone. -/
def beside (f : σ → Answer σ α) (s : σ × τ) : Answer (σ × τ) α := ((f s.1).1, ((f s.1).2, s.2))

/-- A method, seen through `f`. -/
def Mirrors (f : τ → σ) (m' : τ → Answer τ α) (m : σ → Answer σ α) : Prop :=
  ∀ s, m (f s) = Prod.map id f (m' s)

theorem mirrors_beside (m : σ → Answer σ α) : Mirrors (Prod.fst : σ × τ → σ) (beside m) m := fun _ => rfl

/-- The host `H` is the host `H'`, its state seen through `f`. -/
structure Maps (f : τ → σ) (H' : Host τ) (H : Host σ) : Prop where
  storageRead : ∀ k, Mirrors f (H'.storageRead k) (H.storageRead k)
  storageWrite : ∀ k v, Mirrors f (H'.storageWrite k v) (H.storageWrite k v)
  storageDelete : ∀ k, Mirrors f (H'.storageDelete k) (H.storageDelete k)
  caller : ∀ s, H.caller (f s) = H'.caller s
  owner : ∀ s, H.owner (f s) = H'.owner s
  cellId : ∀ s, H.cellId (f s) = H'.cellId s
  height : ∀ s, H.height (f s) = H'.height s
  timestamp : ∀ s, H.timestamp (f s) = H'.timestamp s
  value : ∀ s, H.value (f s) = H'.value s
  calldata : ∀ s, H.calldata (f s) = H'.calldata s
  setReturnData : ∀ d, Mirrors f (H'.setReturnData d) (H.setReturnData d)
  emitLog : ∀ l, Mirrors f (H'.emitLog l) (H.emitLog l)
  callCell : ∀ c d v g, Mirrors f (H'.callCell c d v g) (H.callCell c d v g)
  sha256 : H.sha256 = H'.sha256
  accordRequest : ∀ u m b, Mirrors f (H'.accordRequest u m b) (H.accordRequest u m b)
  accordRead : ∀ r, Mirrors f (H'.accordRead r) (H.accordRead r)
  tokenBalance : ∀ t a, Mirrors f (H'.tokenBalance t a) (H.tokenBalance t a)
  tokenTransfer : ∀ t a b n, Mirrors f (H'.tokenTransfer t a b n) (H.tokenTransfer t a b n)
  tokenMint : ∀ t a n, Mirrors f (H'.tokenMint t a n) (H.tokenMint t a n)
  tokenBurn : ∀ t a n, Mirrors f (H'.tokenBurn t a n) (H.tokenBurn t a n)
  tokenFreeze : ∀ t a, Mirrors f (H'.tokenFreeze t a) (H.tokenFreeze t a)
  tokenThaw : ∀ t a, Mirrors f (H'.tokenThaw t a) (H.tokenThaw t a)
  maxReturnData : H.maxReturnData = H'.maxReturnData
  maxLogData : H.maxLogData = H'.maxLogData
  maxLogTopics : H.maxLogTopics = H'.maxLogTopics
  maxCallDepth : H.maxCallDepth = H'.maxCallDepth

/-- The VM on the other host. -/
@[reducible] def mapVm (f : τ → σ) (vm : Vm τ) : Vm σ where
  host := f vm.host
  regs := vm.regs
  gas := vm.gas
  gasLimit := vm.gasLimit
  callStack := vm.callStack
  depth := vm.depth
  callBuf := vm.callBuf
  pc := vm.pc
  logs := vm.logs

/-- The computations end alike, begun on `vm` and on its image. -/
def Alike (f : τ → σ) (m' : VmM τ α) (m : VmM σ α) (vm : Vm τ) : Prop :=
  outcome m (mapVm f vm) = Prod.map id (mapVm f) (outcome m' vm)

section Rules
variable {f : τ → σ} {vm : Vm τ}

theorem alike_pure (a : α) : Alike f (pure a) (pure a) vm := rfl

theorem alike_throw (e : AxiomError) : Alike f (throw e : VmM τ α) (throw e) vm := rfl

theorem alike_bind {m' : VmM τ α} {m : VmM σ α} {k' : α → VmM τ β} {k : α → VmM σ β}
    (hm : Alike f m' m vm) (hk : ∀ a vm, Alike f (k' a) (k a) vm) : Alike f (m' >>= k') (m >>= k) vm := by
  unfold Alike at hm ⊢
  rw [outcome_bind, outcome_bind, hm]
  rcases outcome m' vm with ⟨e | a, vm'⟩
  · rfl
  · exact hk a vm'

theorem alike_throw_bind (e : AxiomError) {k' : α → VmM τ β} {k : α → VmM σ β} :
    Alike f (throw e >>= k') (throw e >>= k) vm := rfl

theorem alike_get_bind {k' : Vm τ → VmM τ β} {k : Vm σ → VmM σ β}
    (hk : Alike f (k' vm) (k (mapVm f vm)) vm) : Alike f (get >>= k') (get >>= k) vm := hk

theorem alike_set {vm₁ : Vm τ} : Alike f (set vm₁ : VmM τ PUnit) (set (mapVm f vm₁)) vm := rfl

theorem alike_modify {g' : Vm τ → Vm τ} {g : Vm σ → Vm σ} (h : g (mapVm f vm) = mapVm f (g' vm)) :
    Alike f (modify g' : VmM τ PUnit) (modify g) vm := by
  unfold Alike
  rw [outcome_modify, outcome_modify, h]
  rfl

theorem alike_ite {p : Prop} [Decidable p] {m' n' : VmM τ α} {m n : VmM σ α} (hm : Alike f m' m vm)
    (hn : Alike f n' n vm) : Alike f (if p then m' else n') (if p then m else n) vm := by
  split_ifs
  · exact hm
  · exact hn

theorem alike_ask {m' : τ → Answer τ α} {m : σ → Answer σ α} (h : Mirrors f m' m) :
    Alike f (ask m') (ask m) vm := by
  have hvm : m (mapVm f vm).host = Prod.map id f (m' vm.host) := h vm.host
  unfold Alike ask
  simp only [outcome_bind, outcome_get, hvm]
  rcases m' vm.host with ⟨e | a, s⟩
  · rfl
  · rfl

theorem alike_view {g' : τ → α} {g : σ → α} (h : ∀ s, g (f s) = g' s) : Alike f (view g') (view g) vm := by
  show ((.ok (g (f vm.host)), mapVm f vm) : Except AxiomError α × Vm σ) = _
  rw [h]
  rfl

theorem alike_reg (r : Reg) : Alike f (reg r) (reg r) vm := rfl

theorem alike_setReg (r : Reg) (v : Bytes32) : Alike f (setReg r v) (setReg r v) vm := alike_modify rfl

theorem alike_store (dst : Reg) (v : Bytes32) : Alike f (store dst v) (store dst v) vm :=
  alike_bind (alike_setReg dst v) fun _ _ => alike_pure _

theorem alike_charge (cost : ℕ) : Alike f (charge cost) (charge cost) vm :=
  alike_get_bind (alike_ite (alike_throw_bind _) alike_set)

theorem alike_getConst (cell : CellBytecode) (idx : ℕ) : Alike f (getConst cell idx) (getConst cell idx) vm := by
  unfold getConst
  cases cell.constPool[idx]? with
  | none => exact alike_throw _
  | some e => exact alike_pure _

theorem alike_require (ok : Bool) (e : AxiomError) : Alike f (require ok e) (require ok e) vm :=
  alike_ite (alike_throw_bind _) (alike_pure _)

theorem alike_jumpTo (cell : CellBytecode) (t : ℕ) : Alike f (jumpTo cell t) (jumpTo cell t) vm :=
  alike_ite (alike_throw_bind _) (alike_bind (alike_modify rfl) fun _ _ => alike_pure _)

theorem alike_arith3 (g : Limbs → Limbs → Option Limbs) (dst a b : Reg) :
    Alike f (arith3 g dst a b) (arith3 g dst a b) vm := by
  refine alike_bind (alike_reg a) fun x vm => alike_bind (alike_reg b) fun y vm => ?_
  cases g (u256 x) (u256 y) with
  | none => exact alike_throw _
  | some r => exact alike_store dst (to32 r)

theorem alike_bitwise3 (g : Limbs → Limbs → Limbs) (dst a b : Reg) :
    Alike f (bitwise3 g dst a b) (bitwise3 g dst a b) vm :=
  alike_bind (alike_reg a) fun _ _ => alike_bind (alike_reg b) fun _ _ => alike_store dst _

theorem alike_cmp3 (p : Bytes32 → Bytes32 → Bool) (dst a b : Reg) :
    Alike f (cmp3 p dst a b) (cmp3 p dst a b) vm :=
  alike_bind (alike_reg a) fun _ _ => alike_bind (alike_reg b) fun _ _ => alike_store dst _

theorem alike_divide (part : Limbs × Limbs → Limbs) (dst a b : Reg) :
    Alike f (divide part dst a b) (divide part dst a b) vm :=
  alike_bind (alike_reg b) fun _ _ => alike_ite (alike_throw_bind _)
    (alike_bind (alike_reg a) fun _ _ => alike_store dst _)

theorem alike_callResult (r : CrossCellResult) : Alike f (callResult r) (callResult r) vm :=
  alike_bind (alike_charge _) fun _ _ => alike_store 1 _

end Rules

section Run
variable {f : τ → σ} {H' : Host τ} {H : Host σ} (h : Maps f H' H)
include h

theorem alike_callHost (vm : Vm τ) (cell : Bytes32) (calldata : Bytes) (value gas : ℕ) :
    Alike f (callHost H' cell calldata value gas) (callHost H cell calldata value gas) vm := by
  refine alike_ask fun s => ?_
  rw [h.callCell cell calldata value gas s]
  rcases H'.callCell cell calldata value gas s with ⟨e | r, s'⟩
  · rfl
  · rfl

theorem alike_exec (cell : CellBytecode) (op : Op) (vm : Vm τ) :
    Alike f (exec H' cell op) (exec H cell op) vm := by
  cases op
  case «return» =>
    refine alike_get_bind ?_
    cases hstack : vm.callStack with
    | nil => exact alike_throw _
    | cons ra rest => exact alike_bind alike_set fun _ _ => alike_pure _
  case accordRead =>
    refine alike_bind (alike_reg _) fun _ _ => alike_bind (alike_ask (h.accordRead _)) fun body _ => ?_
    cases body with
    | none => exact alike_bind (alike_setReg _ _) fun _ _ => alike_store _ _
    | some body => exact alike_bind (alike_setReg _ _) fun _ _ => alike_store _ _
  all_goals
    unfold exec
    simp only [h.maxReturnData, h.maxLogData, h.maxLogTopics, h.maxCallDepth, h.sha256]
    repeat' with_reducible first
      | exact alike_pure _
      | exact alike_throw _
      | exact alike_throw_bind _
      | refine alike_get_bind ?_
      | refine alike_bind ?_ fun _ _ => ?_
      | refine alike_ite ?_ ?_
      | exact alike_reg _
      | exact alike_store _ _
      | exact alike_setReg _ _
      | exact alike_charge _
      | exact alike_getConst _ _
      | exact alike_require _ _
      | exact alike_jumpTo _ _
      | exact alike_arith3 _ _ _ _
      | exact alike_bitwise3 _ _ _ _
      | exact alike_cmp3 _ _ _ _
      | exact alike_divide _ _ _ _
      | exact alike_callResult _
      | exact alike_set
      | exact alike_modify rfl
      | exact alike_view h.caller
      | exact alike_view h.owner
      | exact alike_view h.cellId
      | exact alike_view h.height
      | exact alike_view h.timestamp
      | exact alike_view h.value
      | exact alike_view h.calldata
      | exact alike_ask (h.storageRead _)
      | exact alike_ask (h.storageWrite _ _)
      | exact alike_ask (h.storageDelete _)
      | exact alike_ask (h.setReturnData _)
      | exact alike_ask (h.emitLog _)
      | exact alike_ask (h.accordRequest _ _ _)
      | exact alike_ask (h.tokenBalance _ _)
      | exact alike_ask (h.tokenTransfer _ _ _ _)
      | exact alike_ask (h.tokenMint _ _ _)
      | exact alike_ask (h.tokenBurn _ _ _)
      | exact alike_ask (h.tokenFreeze _ _)
      | exact alike_ask (h.tokenThaw _ _)
      | exact alike_callHost h _ _ _ _ _

theorem alike_step (cell : CellBytecode) (tag : UInt8) (vm : Vm τ) :
    Alike f (step H' cell tag) (step H cell tag) vm := by
  refine alike_bind (alike_modify rfl) fun _ vm => ?_
  cases operands tag.toNat with
  | none => exact alike_throw _
  | some rd =>
    refine alike_bind (alike_charge _) fun _ vm => alike_get_bind ?_
    cases hread : rd cell.code vm.pc with
    | none => exact alike_throw _
    | some r =>
      obtain ⟨op, pc⟩ := r
      exact alike_bind (alike_modify rfl) fun _ vm => alike_exec h cell op vm

theorem alike_runLoop (cell : CellBytecode) (fuel : ℕ) (vm : Vm τ) :
    Alike f (runLoop H' cell fuel) (runLoop H cell fuel) vm := by
  induction fuel generalizing vm with
  | zero => exact alike_throw _
  | succ fuel ih =>
    refine alike_get_bind ?_
    cases cell.code[vm.pc]? with
    | none => exact alike_pure _
    | some tag =>
      refine alike_bind (alike_step h cell tag vm) fun flow vm => ?_
      cases flow with
      | next => exact ih vm
      | halt => exact alike_pure _

/-- **A run on the one host is the run on the other**, its host state seen through `f`. -/
theorem execute_map (cell : CellBytecode) (host : τ) (gasLimit depth : ℕ) :
    execute H cell (f host) gasLimit depth = Prod.map id f (execute H' cell host gasLimit depth) := by
  have hrun : (runLoop H cell (gasLimit + 1)).run (Vm.new (f host) gasLimit depth) =
      Prod.map id (mapVm f) ((runLoop H' cell (gasLimit + 1)).run (Vm.new host gasLimit depth)) :=
    alike_runLoop h cell (gasLimit + 1) (Vm.new host gasLimit depth)
  unfold execute
  rw [hrun]
  rcases (runLoop H' cell (gasLimit + 1)).run (Vm.new host gasLimit depth) with ⟨_ | _, vm⟩
  · rfl
  · rfl

end Run

end TruthLinked.Axiom.HostMap
