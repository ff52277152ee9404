import TruthLinked.Axiom.Rules

/-! # A run uses no more than its gas limit

No instruction changes the limit, on any host, so what a run reports as used is at most the limit it began
with. -/

namespace TruthLinked.Axiom.Metering

open Core.Types Axiom.Word Axiom.Bytecode Axiom.Opcode Axiom.Machine Lib.Wp

variable {σ α β : Type}

/-- The computation leaves the gas limit alone. -/
def Metered (m : VmM σ α) : Prop := ∀ vm, (outcome m vm).2.gasLimit = vm.gasLimit

theorem metered_pure (a : α) : Metered (pure a : VmM σ α) := fun _ => rfl

theorem metered_throw (e : AxiomError) : Metered (throw e : VmM σ α) := fun _ => rfl

theorem metered_bind {m : VmM σ α} {k : α → VmM σ β} (hm : Metered m) (hk : ∀ a, Metered (k a)) :
    Metered (m >>= k) := by
  intro vm
  have hfirst := hm vm
  rw [outcome_bind]
  revert hfirst
  rcases outcome m vm with ⟨e | a, vm'⟩
  · exact id
  · exact (hk a vm').trans

theorem metered_throw_bind (e : AxiomError) {k : α → VmM σ β} : Metered (throw e >>= k) := fun _ => rfl

theorem metered_get : Metered (get : VmM σ (Vm σ)) := fun _ => rfl

theorem metered_get_bind {k : Vm σ → VmM σ β} (hk : ∀ vm, (outcome (k vm) vm).2.gasLimit = vm.gasLimit) :
    Metered (get >>= k) := hk

theorem metered_ite {p : Prop} [Decidable p] {m n : VmM σ α} (hm : Metered m) (hn : Metered n) :
    Metered (if p then m else n) := by
  split_ifs
  · exact hm
  · exact hn

theorem metered_modify {f : Vm σ → Vm σ} (h : ∀ vm, (f vm).gasLimit = vm.gasLimit) :
    Metered (modify f : VmM σ PUnit) := h

theorem metered_ask (f : σ → Answer σ α) : Metered (ask f) := by
  intro vm
  unfold ask
  simp only [outcome_bind, outcome_get]
  rcases f vm.host with ⟨e | a, s⟩
  · rfl
  · rfl

theorem metered_view (f : σ → α) : Metered (view f) := fun _ => rfl

theorem metered_reg (r : Reg) : Metered (reg r : VmM σ Bytes32) := fun _ => rfl

theorem metered_setReg (r : Reg) (v : Bytes32) : Metered (setReg r v : VmM σ Unit) := fun _ => rfl

theorem metered_store (r : Reg) (v : Bytes32) : Metered (store r v : VmM σ Flow) := fun _ => rfl

theorem metered_charge (cost : ℕ) : Metered (charge cost : VmM σ Unit) := by
  intro vm
  unfold charge
  simp only [outcome_bind, outcome_get]
  split_ifs
  · rfl
  · rfl

theorem metered_getConst (cell : CellBytecode) (idx : ℕ) : Metered (getConst cell idx : VmM σ Bytes) := by
  unfold getConst
  cases cell.constPool[idx]? with
  | none => exact metered_throw _
  | some e => exact metered_pure _

theorem metered_require (ok : Bool) (e : AxiomError) : Metered (require ok e : VmM σ Flow) :=
  metered_ite (metered_throw_bind _) (metered_pure _)

theorem metered_jumpTo (cell : CellBytecode) (t : ℕ) : Metered (jumpTo cell t : VmM σ Flow) :=
  metered_ite (metered_throw_bind _) (metered_bind (metered_modify fun _ => rfl) fun _ => metered_pure _)

theorem metered_arith3 (g : Limbs → Limbs → Option Limbs) (dst a b : Reg) :
    Metered (arith3 g dst a b : VmM σ Flow) := by
  refine metered_bind (metered_reg a) fun x => metered_bind (metered_reg b) fun y => ?_
  cases g (u256 x) (u256 y) with
  | none => exact metered_throw _
  | some r => exact metered_store dst (to32 r)

theorem metered_bitwise3 (g : Limbs → Limbs → Limbs) (dst a b : Reg) :
    Metered (bitwise3 g dst a b : VmM σ Flow) :=
  metered_bind (metered_reg a) fun _ => metered_bind (metered_reg b) fun _ => metered_store dst _

theorem metered_cmp3 (p : Bytes32 → Bytes32 → Bool) (dst a b : Reg) : Metered (cmp3 p dst a b : VmM σ Flow) :=
  metered_bind (metered_reg a) fun _ => metered_bind (metered_reg b) fun _ => metered_store dst _

theorem metered_divide (part : Limbs × Limbs → Limbs) (dst a b : Reg) :
    Metered (divide part dst a b : VmM σ Flow) :=
  metered_bind (metered_reg b) fun _ => metered_ite (metered_throw_bind _)
    (metered_bind (metered_reg a) fun _ => metered_store dst _)

theorem metered_callResult (r : CrossCellResult) : Metered (callResult r : VmM σ Flow) :=
  metered_bind (metered_charge _) fun _ => metered_store 1 _

theorem metered_callHost (H : Host σ) (cell : Bytes32) (calldata : Bytes) (value gas : ℕ) :
    Metered (callHost H cell calldata value gas) := metered_ask _

theorem metered_exec (H : Host σ) (cell : CellBytecode) (op : Op) : Metered (exec H cell op) := by
  cases op
  case «return» =>
    refine metered_get_bind fun vm => ?_
    cases vm.callStack with
    | nil => rfl
    | cons ra rest => rfl
  case accordRead =>
    refine metered_bind (metered_reg _) fun _ => metered_bind (metered_ask _) fun body => ?_
    cases body with
    | none => exact metered_bind (metered_setReg _ _) fun _ => metered_store _ _
    | some body => exact metered_bind (metered_setReg _ _) fun _ => metered_store _ _
  case call t =>
    refine metered_ite (metered_throw_bind _) (metered_get_bind fun vm => ?_)
    split_ifs
    · rfl
    · rfl
  case bufWriteConst =>
    refine metered_bind (metered_getConst _ _) fun _ => metered_bind (metered_charge _) fun _ =>
      metered_get_bind fun vm => ?_
    split_ifs
    · rfl
    · rfl
  case bufWriteReg =>
    refine metered_get_bind fun vm => ?_
    split_ifs
    · rfl
    · rfl
  all_goals
    unfold exec
    repeat' with_reducible first
      | exact metered_pure _
      | exact metered_throw _
      | exact metered_throw_bind _
      | refine metered_bind ?_ fun _ => ?_
      | refine metered_ite ?_ ?_
      | exact metered_reg _
      | exact metered_store _ _
      | exact metered_setReg _ _
      | exact metered_charge _
      | exact metered_getConst _ _
      | exact metered_require _ _
      | exact metered_jumpTo _ _
      | exact metered_arith3 _ _ _ _
      | exact metered_bitwise3 _ _ _ _
      | exact metered_cmp3 _ _ _ _
      | exact metered_divide _ _ _ _
      | exact metered_callResult _
      | exact metered_view _
      | exact metered_ask _
      | exact metered_callHost _ _ _ _ _
      | exact metered_get
      | exact metered_modify fun _ => rfl

theorem metered_step (H : Host σ) (cell : CellBytecode) (tag : UInt8) : Metered (step H cell tag) := by
  refine metered_bind (metered_modify fun _ => rfl) fun _ => ?_
  cases operands tag.toNat with
  | none => exact metered_throw _
  | some rd =>
    refine metered_bind (metered_charge _) fun _ => metered_bind metered_get fun vm => ?_
    cases rd cell.code vm.pc with
    | none => exact metered_throw _
    | some r => exact metered_bind (metered_modify fun _ => rfl) fun _ => metered_exec H cell r.1

theorem metered_runLoop (H : Host σ) (cell : CellBytecode) (fuel : ℕ) : Metered (runLoop H cell fuel) := by
  induction fuel with
  | zero => exact metered_throw _
  | succ fuel ih =>
    refine metered_bind metered_get fun vm => ?_
    cases cell.code[vm.pc]? with
    | none => exact metered_pure _
    | some tag =>
      refine metered_bind (metered_step H cell tag) fun flow => ?_
      cases flow with
      | next => exact ih
      | halt => exact metered_pure _

/-- **A run uses at most its gas limit.** -/
theorem gasUsed_execute_le (H : Host σ) (cell : CellBytecode) (host : σ) (gasLimit depth : ℕ) :
    (execute H cell host gasLimit depth).1.gasUsed ≤ gasLimit := by
  have hlimit : ((runLoop H cell (gasLimit + 1)).run (Vm.new host gasLimit depth)).2.gasLimit = gasLimit :=
    metered_runLoop H cell (gasLimit + 1) (Vm.new host gasLimit depth)
  unfold execute
  revert hlimit
  rcases (runLoop H cell (gasLimit + 1)).run (Vm.new host gasLimit depth) with ⟨_ | _, vm⟩
  · exact fun hlimit => (Nat.sub_le _ _).trans hlimit.le
  · exact fun hlimit => (Nat.sub_le _ _).trans hlimit.le

end TruthLinked.Axiom.Metering
