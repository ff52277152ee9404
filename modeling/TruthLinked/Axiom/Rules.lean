import TruthLinked.Axiom.Machine
import TruthLinked.Lib.Wp

/-! # Rules for the primitives of the VM

The weakest precondition of each primitive of `Machine`, as a simp set: a statement about an
instruction becomes a first-order statement about the state before it. -/

namespace TruthLinked.Axiom.Rules

open Core.Types Axiom.Bytecode Axiom.Opcode Axiom.Machine Lib.Wp

section
variable {σ α : Type} {E : AxiomError → Vm σ → Prop} {vm : Vm σ}

@[simp] theorem wp_charge {Q : Unit → Vm σ → Prop} (cost : ℕ) :
    wp (charge cost) Q E vm ↔ (vm.gas < cost → E .outOfGas vm) ∧
      (¬ vm.gas < cost → Q () { vm with gas := vm.gas - cost }) := by
  unfold charge
  simp only [wp_bind, wp_get, wp_ite, wp_throw, wp_set]

@[simp] theorem wp_reg {Q : Bytes32 → Vm σ → Prop} (r : Reg) :
    wp (reg r) Q E vm ↔ Q (vm.regs r) vm := by
  simp only [reg, wp_bind, wp_get, wp_pure]

@[simp] theorem wp_setReg {Q : Unit → Vm σ → Prop} (r : Reg) (v : Bytes32) :
    wp (setReg r v) Q E vm ↔
      Q () { vm with regs := if r = 0 then vm.regs else Function.update vm.regs r v } := by
  simp only [setReg, wp_modify]

@[simp] theorem wp_store {Q : Flow → Vm σ → Prop} (r : Reg) (v : Bytes32) :
    wp (store r v) Q E vm ↔
      Q .next { vm with regs := if r = 0 then vm.regs else Function.update vm.regs r v } := by
  simp only [store, wp_bind, wp_setReg, wp_pure]

@[simp] theorem wp_view {Q : α → Vm σ → Prop} (f : σ → α) :
    wp (view f) Q E vm ↔ Q (f vm.host) vm := by
  simp only [view, wp_bind, wp_get, wp_pure]

theorem wp_ask {Q : α → Vm σ → Prop} (f : σ → Answer σ α) :
    wp (ask f) Q E vm ↔ match f vm.host with
      | (.ok a, h) => Q a { vm with host := h }
      | (.error e, h) => E e { vm with host := h } := by
  unfold ask
  simp only [wp_bind, wp_get]
  rcases f vm.host with ⟨e | a, h⟩
  · simp
  · simp

theorem wp_ask_of_forall {Q : α → Vm σ → Prop} (f : σ → Answer σ α)
    (hQ : ∀ a, Q a { vm with host := (f vm.host).2 })
    (hE : ∀ e, E e { vm with host := (f vm.host).2 }) : wp (ask f) Q E vm := by
  rw [wp_ask]
  rcases hf : f vm.host with ⟨e | a, h⟩
  · simpa [hf] using hE e
  · simpa [hf] using hQ a

theorem wp_getConst {Q : Bytes → Vm σ → Prop} (cell : CellBytecode) (idx : ℕ) :
    wp (getConst cell idx) Q E vm ↔ (∀ e, cell.constPool[idx]? = some e → Q e vm) ∧
      (cell.constPool[idx]? = none → E (.invalidConstIndex idx) vm) := by
  unfold getConst
  cases h : cell.constPool[idx]? with
  | none => simp
  | some e => simp

@[simp] theorem wp_require {Q : Flow → Vm σ → Prop} (ok : Bool) (e : AxiomError) :
    wp (require ok e) Q E vm ↔ (ok = false → E e vm) ∧ (ok = true → Q .next vm) := by
  cases ok <;> simp [require]

@[simp] theorem wp_jumpTo {Q : Flow → Vm σ → Prop} (cell : CellBytecode) (t : ℕ) :
    wp (jumpTo cell t) Q E vm ↔ (t ≥ cell.code.length → E (.invalidJumpTarget t) vm) ∧
      (¬ t ≥ cell.code.length → Q .next { vm with pc := t }) := by
  unfold jumpTo
  simp only [wp_bind, wp_ite, wp_throw, wp_pure, wp_modify]

end

end TruthLinked.Axiom.Rules
