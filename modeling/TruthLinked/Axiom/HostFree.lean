import TruthLinked.Axiom.Rules

/-! # What a program does whatever the host answers

The machine below runs a program without its host: a register is known (`some v`) or depends on an
answer of the host (`none`). An instruction on known registers computes; a branch on an unknown
register may go both ways; gas is not counted. Every run of the VM, on any host, follows a path of
this machine and agrees with it on the known registers (`exec_follows`, `runLoop_keeps`). The same
induction carries any property `O` of the host state that the host's methods keep, the storage methods
only for the accesses that the path makes (`Host.Keeps`). -/

namespace TruthLinked.Axiom.HostFree

open Core.Types Axiom.Word Axiom.Bytecode Axiom.Opcode Axiom.Machine Axiom.Rules Lib.Wp

/-- What is known of the registers. -/
abbrev Known := Reg → Option Bytes32

/-- A configuration of the machine without a host. -/
structure Cfg where
  pc : ℕ
  callStack : List ℕ
  known : Known

/-- The start: all registers are zero. -/
def Cfg.init : Cfg := ⟨0, [], fun _ => some 0⟩

/-- Write what is known of a result. -/
def Cfg.set (c : Cfg) (r : Reg) (v : Option Bytes32) : Cfg :=
  { c with known := if r = 0 then c.known else Function.update c.known r v }

/-- An operation on two registers. -/
def Cfg.both {α : Type} (c : Cfg) (f : Bytes32 → Bytes32 → α) (a b : Reg) : Option α :=
  (c.known a).bind fun x => (c.known b).map (f x)

/-- Write the result of an operation that may fail. -/
def Cfg.attempt (c : Cfg) (dst : Reg) : Option (Option Bytes32) → List Cfg
  | some (some v) => [c.set dst (some v)]
  | some none => []
  | none => [c.set dst none]

/-- Go on if a check may pass. -/
def Cfg.check (c : Cfg) : Option Bool → List Cfg
  | some false => []
  | _ => [c]

/-- Jump to a target inside the code. -/
def Cfg.jump (c : Cfg) (cell : CellBytecode) (t : ℕ) : List Cfg :=
  if t < cell.code.length then [{ c with pc := t }] else []

/-- The configurations after an instruction, from one whose `pc` is past the operands. -/
def absExec (cell : CellBytecode) (op : Op) (c : Cfg) : List Cfg :=
  match op with
  | .add dst a b => c.attempt dst (c.both (fun x y => (Word.add (u256 x) (u256 y)).map to32) a b)
  | .sub dst a b => c.attempt dst (c.both (fun x y => (Word.sub (u256 x) (u256 y)).map to32) a b)
  | .mul dst a b => c.attempt dst (c.both (fun x y => (Word.mul (u256 x) (u256 y)).map to32) a b)
  | .div dst a b => c.attempt dst (c.both (fun x y =>
      if u256 y = limbs 0 0 0 0 then none else some (to32 (divmod (u256 x) (u256 y)).1)) a b)
  | .mod dst a b => c.attempt dst (c.both (fun x y =>
      if u256 y = limbs 0 0 0 0 then none else some (to32 (divmod (u256 x) (u256 y)).2)) a b)
  | .addSat dst a b => [c.set dst (c.both (fun x y => to32 (Word.addSat (u256 x) (u256 y))) a b)]
  | .subSat dst a b => [c.set dst (c.both (fun x y => to32 (Word.subSat (u256 x) (u256 y))) a b)]
  | .and dst a b => [c.set dst (c.both (fun x y => to32 (Word.and (u256 x) (u256 y))) a b)]
  | .or dst a b => [c.set dst (c.both (fun x y => to32 (Word.or (u256 x) (u256 y))) a b)]
  | .xor dst a b => [c.set dst (c.both (fun x y => to32 (Word.xor (u256 x) (u256 y))) a b)]
  | .not dst a => [c.set dst ((c.known a).map fun x => to32 (Word.not (u256 x)))]
  | .shl dst a s => [c.set dst ((c.known a).map fun x => to32 (Word.shl (u256 x) s))]
  | .shr dst a s => [c.set dst ((c.known a).map fun x => to32 (Word.shr (u256 x) s))]
  | .eq dst a b => [c.set dst (c.both (fun x y => bval (x == y)) a b)]
  | .ne dst a b => [c.set dst (c.both (fun x y => bval (x != y)) a b)]
  | .lt dst a b => [c.set dst (c.both (fun x y => bval (Word.cmp (u256 x) (u256 y) == .lt)) a b)]
  | .lte dst a b => [c.set dst (c.both (fun x y => bval (Word.cmp (u256 x) (u256 y) != .gt)) a b)]
  | .gt dst a b => [c.set dst (c.both (fun x y => bval (Word.cmp (u256 x) (u256 y) == .gt)) a b)]
  | .gte dst a b => [c.set dst (c.both (fun x y => bval (Word.cmp (u256 x) (u256 y) != .lt)) a b)]
  | .isZero dst a => [c.set dst ((c.known a).map fun x => bval (Word.isZero x))]
  | .jump t => c.jump cell t
  | .jumpIf r t =>
    match c.known r with
    | some v => if Word.isZero v then [c] else c.jump cell t
    | none => [c] ++ c.jump cell t
  | .jumpIfNot r t =>
    match c.known r with
    | some v => if Word.isZero v then c.jump cell t else [c]
    | none => c.jump cell t ++ [c]
  | .call t =>
    if t < cell.code.length ∧ c.callStack.length < callStackLimit then
      [{ c with callStack := c.pc :: c.callStack, pc := t }]
    else []
  | .return =>
    match c.callStack with
    | [] => []
    | ra :: rest => [{ c with callStack := rest, pc := ra }]
  | .halt | .trap _ => []
  | .loadConst dst idx =>
    match cell.constPool[idx]? with
    | some e => if e.length > 32 then [] else [c.set dst (some (padRight e))]
    | none => []
  | .loadImm8 dst imm => [c.set dst (some (padRight [imm]))]
  | .loadImm64 dst imm => [c.set dst (some (padRight (leBytes 8 imm)))]
  | .move dst src => [c.set dst (c.known src)]
  | .swap a b =>
    if a ≠ b ∧ a ≠ 0 ∧ b ≠ 0 then [(c.set a (c.known b)).set b (c.known a)] else [c]
  | .requireEq a b => c.check (c.both (fun x y => x == y) a b)
  | .requireNe a b => c.check (c.both (fun x y => x != y) a b)
  | .requireLt a b => c.check (c.both (fun x y => Word.cmp (u256 x) (u256 y) == .lt) a b)
  | .requireNonZero r => c.check ((c.known r).map fun x => !Word.isZero x)
  -- results of the host
  | .sload dst _ | .getCaller dst | .getOwner dst | .getCellId dst | .getHeight dst
  | .getTimestamp dst | .getValue dst | .getCalldataLen dst | .getCalldata dst _ | .hash32 dst _
  | .hash32Const dst _ | .tokenBalance dst _ _ | .accordRequest dst _ _ _ => [c.set dst none]
  | .callCell .. | .bufCallCell .. => [c.set 1 none]
  | .accordRead dst _ => [(c.set dst none).set 1 none]
  -- effects on the host only
  | .sstore .. | .sdelete .. | .setReturn .. | .setReturnReg .. | .emitLog .. | .emitLogReg ..
  | .bufReset | .bufWriteConst .. | .bufWriteReg .. | .bufSetReturn | .requireOwner
  | .requireCaller .. | .requireGas .. | .tokenTransfer .. | .tokenMint .. | .tokenBurn ..
  | .tokenFreeze .. | .tokenThaw .. => [c]

/-- The instruction at `pc` and the position after it. -/
def opAt (cell : CellBytecode) (pc : ℕ) : Option (Op × ℕ) :=
  cell.code[pc]?.bind fun tag => (operands tag.toNat).bind fun rd => rd cell.code (pc + 1)

/-- One step without a host. -/
def absStep (cell : CellBytecode) (c : Cfg) : List Cfg :=
  match opAt cell c.pc with
  | none => []
  | some (op, pc) => absExec cell op { c with pc := pc }

/-- The configurations on the paths of the machine without a host. -/
inductive Reach (cell : CellBytecode) : Cfg → Prop
  | init : Reach cell Cfg.init
  | step {c c' : Cfg} (h : Reach cell c) (hc : c' ∈ absStep cell c) : Reach cell c'

/-! ### Accesses -/

/-- A key passed to a storage method of the host. -/
inductive Access where
  | read (key : Bytes32)
  | write (key : Bytes32)
  deriving DecidableEq

/-- The access an instruction makes, given the registers: `storage_read` reads, `storage_write` and
`storage_delete` write. -/
def accessOf (regs : Reg → Bytes32) : Op → Option Access
  | .sload _ key => some (.read (regs key))
  | .sstore key _ | .sdelete key => some (.write (regs key))
  | _ => none

/-- The host keeps `O`, its storage methods on the accesses that are `ok`. -/
structure Host.Keeps {σ : Type} (H : Host σ) (O : σ → Prop) (ok : Access → Prop) : Prop where
  storageRead : ∀ k s, ok (.read k) → O s → O (H.storageRead k s).2
  storageWrite : ∀ k v s, ok (.write k) → O s → O (H.storageWrite k v s).2
  storageDelete : ∀ k s, ok (.write k) → O s → O (H.storageDelete k s).2
  setReturnData : ∀ d s, O s → O (H.setReturnData d s).2
  emitLog : ∀ l s, O s → O (H.emitLog l s).2
  callCell : ∀ c d v g s, O s → O (H.callCell c d v g s).2
  accordRequest : ∀ u m b s, O s → O (H.accordRequest u m b s).2
  accordRead : ∀ r s, O s → O (H.accordRead r s).2
  tokenBalance : ∀ t a s, O s → O (H.tokenBalance t a s).2
  tokenTransfer : ∀ t a b n s, O s → O (H.tokenTransfer t a b n s).2
  tokenMint : ∀ t a n s, O s → O (H.tokenMint t a n s).2
  tokenBurn : ∀ t a n s, O s → O (H.tokenBurn t a n s).2
  tokenFreeze : ∀ t a s, O s → O (H.tokenFreeze t a s).2
  tokenThaw : ∀ t a s, O s → O (H.tokenThaw t a s).2

/-! ### The VM follows a path -/

/-- The known registers have their values. -/
def Agrees (k : Known) (regs : Reg → Bytes32) : Prop := ∀ r v, k r = some v → regs r = v

/-- The VM is at the configuration. -/
structure Sim {σ : Type} (c : Cfg) (vm : Vm σ) : Prop where
  pc : c.pc = vm.pc
  callStack : c.callStack = vm.callStack
  agrees : Agrees c.known vm.regs

section Sim
variable {σ : Type} {c : Cfg} {vm : Vm σ}

/-- A write of a value that what is known of it describes. -/
theorem Sim.set (h : Sim c vm) (r : Reg) {kv : Option Bytes32} {v : Bytes32}
    (hv : ∀ w, kv = some w → v = w) :
    Sim (c.set r kv)
      { vm with regs := if r = 0 then vm.regs else Function.update vm.regs r v } := by
  refine ⟨h.pc, h.callStack, fun q w hq => ?_⟩
  simp only [Cfg.set] at hq
  by_cases hr : r = 0
  · rw [if_pos hr] at hq
    simp only [if_pos hr]
    exact h.agrees q w hq
  · rw [if_neg hr] at hq
    simp only [if_neg hr]
    by_cases hqr : q = r
    · subst hqr
      rw [Function.update_self] at hq ⊢
      exact hv w hq
    · rw [Function.update_of_ne hqr] at hq ⊢
      exact h.agrees q w hq

theorem Sim.both (h : Sim c vm) {α : Type} {f : Bytes32 → Bytes32 → α} {a b : Reg} {w : α}
    (hw : c.both f a b = some w) : f (vm.regs a) (vm.regs b) = w := by
  simp only [Cfg.both, Option.bind_eq_some_iff, Option.map_eq_some_iff] at hw
  obtain ⟨x, hx, y, hy, rfl⟩ := hw
  rw [h.agrees a x hx, h.agrees b y hy]

theorem Sim.one (h : Sim c vm) {f : Bytes32 → Bytes32} {a : Reg} {w : Bytes32}
    (hw : (c.known a).map f = some w) : f (vm.regs a) = w := by
  obtain ⟨x, hx, rfl⟩ := Option.map_eq_some_iff.mp hw
  rw [h.agrees a x hx]

theorem Sim.attempt (h : Sim c vm) (dst : Reg) {f : Bytes32 → Bytes32 → Option Bytes32} {a b : Reg}
    {v : Bytes32} (hv : f (vm.regs a) (vm.regs b) = some v) :
    ∃ c' ∈ c.attempt dst (c.both f a b),
      Sim c' { vm with regs := if dst = 0 then vm.regs else Function.update vm.regs dst v } := by
  rcases hk : c.both f a b with _ | w
  · exact ⟨c.set dst none, by simp [Cfg.attempt], h.set dst (by simp)⟩
  · have hw := h.both hk
    rw [hv] at hw
    subst hw
    exact ⟨c.set dst (some v), by simp [Cfg.attempt], h.set dst (by simp)⟩

theorem Sim.check (h : Sim c vm) {k : Option Bool} (hk : ∀ b, k = some b → b = true) :
    ∃ c' ∈ c.check k, Sim c' vm := by
  refine ⟨c, ?_, h⟩
  rcases k with _ | b
  · simp [Cfg.check]
  · rw [hk b rfl]
    simp [Cfg.check]

theorem Sim.jump (h : Sim c vm) {cell : CellBytecode} {t : ℕ} (ht : ¬ t ≥ cell.code.length) :
    ∃ c' ∈ c.jump cell t, Sim c' { vm with pc := t } := by
  refine ⟨{ c with pc := t }, ?_, ⟨rfl, h.callStack, h.agrees⟩⟩
  unfold Cfg.jump
  rw [if_pos (Nat.lt_of_not_le ht)]
  simp

theorem Sim.same (h : Sim c vm) {vm' : Vm σ} (hpc : vm'.pc = vm.pc)
    (hst : vm'.callStack = vm.callStack) (hr : vm'.regs = vm.regs) : Sim c vm' :=
  ⟨h.pc.trans hpc.symm, h.callStack.trans hst.symm, hr ▸ h.agrees⟩

end Sim

/-- A computation that keeps `O`, and when it succeeds leaves `pc`, the call stack and the registers
alone. -/
def Quiet {σ α : Type} (O : σ → Prop) (m : VmM σ α) : Prop :=
  ∀ vm, O vm.host → wp m
    (fun _ vm' => (vm'.pc = vm.pc ∧ vm'.callStack = vm.callStack ∧ vm'.regs = vm.regs) ∧ O vm'.host)
    (fun _ vm' => O vm'.host) vm

section Quiet
variable {σ α β : Type} {O : σ → Prop}

theorem quiet_pure (a : α) : Quiet O (pure a) := by
  intro vm hO
  simpa only [wp_pure, and_self, true_and] using hO

theorem quiet_throw_bind (e : AxiomError) (f : α → VmM σ β) : Quiet O (throw e >>= f) := by
  intro vm hO
  simpa only [wp_bind, wp_throw] using hO

theorem quiet_bind {m : VmM σ α} {f : α → VmM σ β} (hm : Quiet O m) (hf : ∀ a, Quiet O (f a)) :
    Quiet O (m >>= f) := by
  intro vm hO
  rw [wp_bind]
  refine wp_mono (hm vm hO) (fun a vm' h => ?_) fun _ _ h => h
  refine wp_mono (hf a vm' h.2) ?_ fun _ _ h => h
  rintro b vm'' ⟨⟨h1, h2, h3⟩, hO'⟩
  exact ⟨⟨h1.trans h.1.1, h2.trans h.1.2.1, h3.trans h.1.2.2⟩, hO'⟩

theorem quiet_ite (p : Prop) [Decidable p] {m n : VmM σ α} (hm : Quiet O m) (hn : Quiet O n) :
    Quiet O (if p then m else n) := by
  split_ifs
  · exact hm
  · exact hn

theorem quiet_get : Quiet O (get : VmM σ (Vm σ)) := by
  intro vm hO
  simpa only [wp_get, and_self, true_and] using hO

theorem quiet_reg (r : Reg) : Quiet O (reg r) := by
  intro vm hO
  simpa only [wp_reg, and_self, true_and] using hO

theorem quiet_view (f : σ → α) : Quiet O (view f) := by
  intro vm hO
  simpa only [wp_view, and_self, true_and] using hO

theorem quiet_charge (cost : ℕ) : Quiet O (charge cost) := by
  intro vm hO
  rw [wp_charge]
  exact ⟨fun _ => hO, fun _ => ⟨⟨rfl, rfl, rfl⟩, hO⟩⟩

theorem quiet_ask {f : σ → Answer σ α} (hf : ∀ s, O s → O (f s).2) : Quiet O (ask f) :=
  fun vm hO => wp_ask_of_forall f (fun _ => ⟨⟨rfl, rfl, rfl⟩, hf vm.host hO⟩) fun _ => hf vm.host hO

theorem quiet_getConst (cell : CellBytecode) (idx : ℕ) : Quiet O (getConst cell idx) := by
  intro vm hO
  rw [wp_getConst]
  exact ⟨fun _ _ => ⟨⟨rfl, rfl, rfl⟩, hO⟩, fun _ => hO⟩

theorem quiet_require (ok : Bool) (e : AxiomError) : Quiet O (require ok e) := by
  intro vm hO
  rw [wp_require]
  exact ⟨fun _ => hO, fun _ => ⟨⟨rfl, rfl, rfl⟩, hO⟩⟩

theorem quiet_modify {f : Vm σ → Vm σ} (hf : ∀ vm, ((f vm).pc = vm.pc ∧
    (f vm).callStack = vm.callStack ∧ (f vm).regs = vm.regs) ∧ (f vm).host = vm.host) :
    Quiet O (modify f : VmM σ PUnit) := by
  intro vm hO
  rw [wp_modify]
  exact ⟨(hf vm).1, (hf vm).2 ▸ hO⟩

theorem quiet_append (n : ℕ) (bs : Vm σ → Bytes) : Quiet O (do
    let vm ← get
    if vm.callBuf.length + n > callBufSize then throw .bufOverflow
    set { vm with callBuf := vm.callBuf ++ bs vm }
    return Flow.next : VmM σ Flow) := by
  intro vm hO
  simp only [wp_bind, wp_get, wp_ite, wp_throw, wp_set, wp_pure]
  exact ⟨fun _ => hO, fun _ => ⟨⟨trivial, trivial, trivial⟩, hO⟩⟩

end Quiet

section Equations
-- the equations of the two interpreters, all at once: the proofs below would wait for one another to find them
attribute [local simp] exec absExec
end Equations

section Follows
variable {σ : Type} {O : σ → Prop} {c : Cfg} {vm : Vm σ}

/-- An instruction keeps `O` and, unless it halts, goes to one of the configurations `succ`. -/
def Follows (O : σ → Prop) (m : VmM σ Flow) (succ : List Cfg) (vm : Vm σ) : Prop :=
  wp m (fun fl vm' => (fl = .next → ∃ c' ∈ succ, Sim c' vm') ∧ O vm'.host)
    (fun _ vm' => O vm'.host) vm

theorem follows_bind {α : Type} (h : Sim c vm) (hO : O vm.host) {m : VmM σ α} (hm : Quiet O m)
    {f : α → VmM σ Flow} {l : List Cfg}
    (hf : ∀ a vm', Sim c vm' → O vm'.host → Follows O (f a) l vm') : Follows O (m >>= f) l vm := by
  unfold Follows
  rw [wp_bind]
  refine wp_mono (hm vm hO) (fun a vm' hq => ?_) fun _ _ h => h
  exact hf a vm' (h.same hq.1.1 hq.1.2.1 hq.1.2.2) hq.2

theorem follows_quiet (h : Sim c vm) (hO : O vm.host) {m : VmM σ Flow} (hm : Quiet O m) :
    Follows O m [c] vm :=
  wp_mono (hm vm hO)
    (fun _ _ hq => ⟨fun _ => ⟨c, by simp, h.same hq.1.1 hq.1.2.1 hq.1.2.2⟩, hq.2⟩) fun _ _ h => h

theorem follows_throw (hO : O vm.host) (e : AxiomError) (l : List Cfg) :
    Follows O (throw e) l vm := by
  unfold Follows
  simpa only [wp_throw] using hO

theorem follows_throw_bind {α : Type} (hO : O vm.host) (e : AxiomError) (f : α → VmM σ Flow)
    (l : List Cfg) : Follows O (throw e >>= f) l vm := by
  unfold Follows
  simpa only [wp_bind, wp_throw] using hO

theorem follows_ite (p : Prop) [Decidable p] {m n : VmM σ Flow} {l : List Cfg}
    (hm : Follows O m l vm) (hn : Follows O n l vm) : Follows O (if p then m else n) l vm := by
  split_ifs
  · exact hm
  · exact hn

theorem follows_reg (r : Reg) {f : Bytes32 → VmM σ Flow} {l : List Cfg}
    (h : Follows O (f (vm.regs r)) l vm) : Follows O (reg r >>= f) l vm := by
  unfold Follows
  rw [wp_bind, wp_reg]
  exact h

theorem follows_value (h : Sim c vm) (hO : O vm.host) (dst : Reg) {kv : Option Bytes32} {v : Bytes32}
    (hv : ∀ w, kv = some w → v = w) : Follows O (store dst v) [c.set dst kv] vm := by
  unfold Follows
  rw [wp_store]
  exact ⟨fun _ => ⟨_, by simp, h.set dst hv⟩, hO⟩

theorem follows_answer {α : Type} (h : Sim c vm) (hO : O vm.host) {m : VmM σ α} (hm : Quiet O m)
    (g : α → Bytes32) (dst : Reg) :
    Follows O (m >>= fun a => store dst (g a)) [c.set dst none] vm :=
  follows_bind h hO hm fun _ _ h' hO' => follows_value h' hO' dst (by simp)

theorem follows_arith3 (h : Sim c vm) (hO : O vm.host) (f : Limbs → Limbs → Option Limbs)
    (dst a b : Reg) : Follows O (arith3 f dst a b)
      (c.attempt dst (c.both (fun x y => (f (u256 x) (u256 y)).map to32) a b)) vm := by
  unfold Follows arith3
  simp only [wp_bind, wp_reg]
  rcases hr : f (u256 (vm.regs a)) (u256 (vm.regs b)) with _ | r
  · simpa only [wp_throw] using hO
  · simp only [wp_bind, wp_setReg, wp_pure]
    exact ⟨fun _ => h.attempt dst (by simp [hr]), hO⟩

theorem follows_divide (h : Sim c vm) (hO : O vm.host) (part : Limbs × Limbs → Limbs)
    (dst a b : Reg) : Follows O (divide part dst a b) (c.attempt dst (c.both (fun x y =>
      if u256 y = limbs 0 0 0 0 then none else some (to32 (part (divmod (u256 x) (u256 y))))) a b))
      vm := by
  unfold Follows divide
  simp only [wp_bind, wp_reg, wp_ite, wp_throw, wp_setReg, wp_pure]
  exact ⟨fun _ => hO, fun hb => ⟨fun _ => h.attempt dst (if_neg hb), hO⟩⟩

theorem follows_bitwise3 (h : Sim c vm) (hO : O vm.host) (f : Limbs → Limbs → Limbs)
    (dst a b : Reg) : Follows O (bitwise3 f dst a b)
      [c.set dst (c.both (fun x y => to32 (f (u256 x) (u256 y))) a b)] vm := by
  unfold Follows bitwise3
  simp only [wp_bind, wp_reg, wp_setReg, wp_pure]
  exact ⟨fun _ => ⟨_, List.mem_singleton_self _, h.set dst fun _ => h.both⟩, hO⟩

theorem follows_cmp3 (h : Sim c vm) (hO : O vm.host) (p : Bytes32 → Bytes32 → Bool) (dst a b : Reg) :
    Follows O (cmp3 p dst a b) [c.set dst (c.both (fun x y => bval (p x y)) a b)] vm := by
  unfold Follows cmp3
  simp only [wp_bind, wp_reg, wp_setReg, wp_pure]
  exact ⟨fun _ => ⟨_, List.mem_singleton_self _, h.set dst fun _ => h.both⟩, hO⟩

theorem follows_require (h : Sim c vm) (hO : O vm.host) {ok : Bool} (e : AxiomError)
    {k : Option Bool} (hk : ∀ b, k = some b → ok = b) : Follows O (require ok e) (c.check k) vm := by
  unfold Follows
  rw [wp_require]
  refine ⟨fun _ => hO, fun hok => ⟨fun _ => h.check fun b hb => ?_, hO⟩⟩
  rw [← hk b hb, hok]

theorem follows_jump (h : Sim c vm) (hO : O vm.host) (cell : CellBytecode) (t : ℕ) :
    Follows O (jumpTo cell t) (c.jump cell t) vm := by
  unfold Follows
  rw [wp_jumpTo]
  exact ⟨fun _ => hO, fun ht => ⟨fun _ => h.jump ht, hO⟩⟩

theorem follows_mono {m : VmM σ Flow} {l l' : List Cfg} (hl : ∀ c ∈ l, c ∈ l')
    (h : Follows O m l vm) : Follows O m l' vm :=
  wp_mono h (fun _ _ hq => ⟨fun hfl => by
    obtain ⟨c', hc', hs⟩ := hq.1 hfl
    exact ⟨c', hl c' hc', hs⟩, hq.2⟩) fun _ _ h => h

/-- A branch on a register goes the way the register decides, if it is known, and one of the two ways
otherwise. -/
theorem follows_branch (h : Sim c vm) (r : Reg) (p : Bytes32 → Bool) {m n : VmM σ Flow}
    {lm ln : List Cfg} (hm : Follows O m lm vm) (hn : Follows O n ln vm) :
    Follows O (if p (vm.regs r) then m else n)
      (match c.known r with
        | some v => if p v then lm else ln
        | none => lm ++ ln) vm := by
  rcases hk : c.known r with _ | v
  · by_cases hp : p (vm.regs r)
    · rw [if_pos hp]
      exact follows_mono (fun c hc => List.mem_append_left _ hc) hm
    · rw [if_neg hp]
      exact follows_mono (fun c hc => List.mem_append_right _ hc) hn
  · rw [h.agrees r v hk]
    by_cases hp : p v
    · simpa only [if_pos hp] using hm
    · simpa only [if_neg hp] using hn

variable {H : Host σ} {ok : Access → Prop} (hH : Host.Keeps H O ok)

include hH in
/-- A cross-cell call: its success flag goes to `r1`. -/
theorem follows_callHost (h : Sim c vm) (hO : O vm.host) (cell : Bytes32) (cd : Bytes) (v gas : ℕ) :
    Follows O (callHost H cell cd v gas >>= callResult) [c.set 1 none] vm := by
  refine follows_bind h hO (quiet_ask fun s hs => ?_) fun r vm' h' hO' => ?_
  · have hc := hH.callCell cell cd v gas s hs
    revert hc
    rcases H.callCell cell cd v gas s with ⟨_ | _, _⟩ <;> exact id
  · exact follows_bind h' hO' (quiet_charge _) fun _ _ h'' hO'' =>
      follows_value h'' hO'' 1 (by simp)

theorem follows_call (h : Sim c vm) (hO : O vm.host) (cell : CellBytecode) (t : ℕ) :
    Follows O (exec H cell (.call t)) (absExec cell (.call t) c) vm := by
  simp only [Follows, exec, absExec, wp_ite, wp_bind, wp_throw, wp_get, wp_set, wp_pure,
    forall_const]
  refine ⟨fun _ => hO, fun ht => ⟨fun _ => hO, fun hd => ⟨?_, hO⟩⟩⟩
  refine ⟨{ c with callStack := c.pc :: c.callStack, pc := t }, ?_, rfl, ?_, h.agrees⟩
  · rw [if_pos ⟨Nat.lt_of_not_le ht, by rw [h.callStack]; exact Nat.lt_of_not_le hd⟩]
    exact List.mem_singleton_self _
  · simp only [h.pc, h.callStack]

theorem follows_return (h : Sim c vm) (hO : O vm.host) (cell : CellBytecode) :
    Follows O (exec H cell .return) (absExec cell .return c) vm := by
  simp only [Follows, exec, absExec, wp_bind, wp_get]
  rw [h.callStack]
  cases hst : vm.callStack with
  | nil => simpa only [wp_throw] using hO
  | cons ra rest =>
    simp only [wp_bind, wp_set, wp_pure]
    exact ⟨fun _ => ⟨_, List.mem_singleton_self _, rfl, rfl, h.agrees⟩, hO⟩

theorem follows_loadConst (h : Sim c vm) (hO : O vm.host) (cell : CellBytecode) (dst : Reg) (idx : ℕ) :
    Follows O (exec H cell (.loadConst dst idx)) (absExec cell (.loadConst dst idx) c) vm := by
  simp only [Follows, exec, absExec, wp_bind, wp_getConst]
  refine ⟨fun e he => ?_, fun _ => hO⟩
  simp only [he, wp_ite, wp_bind, wp_throw, wp_store, forall_const]
  refine ⟨fun _ => hO, fun hlen => ⟨?_, hO⟩⟩
  rw [if_neg hlen]
  exact ⟨_, List.mem_singleton_self _, h.set dst (by simp)⟩

theorem follows_swap (h : Sim c vm) (hO : O vm.host) (cell : CellBytecode) (a b : Reg) :
    Follows O (exec H cell (.swap a b)) (absExec cell (.swap a b) c) vm := by
  simp only [Follows, exec, absExec, wp_ite, wp_bind, wp_reg, wp_setReg, wp_pure, forall_const]
  constructor
  · intro hab
    rw [if_pos hab]
    exact ⟨⟨_, List.mem_singleton_self _, (h.set a (h.agrees b)).set b (h.agrees a)⟩, hO⟩
  · intro hab
    rw [if_neg hab]
    exact ⟨⟨_, List.mem_singleton_self _, h⟩, hO⟩

include hH in
theorem follows_accordRead (h : Sim c vm) (hO : O vm.host) (cell : CellBytecode) (dst r : Reg) :
    Follows O (exec H cell (.accordRead dst r)) (absExec cell (.accordRead dst r) c) vm := by
  simp only [exec, absExec]
  refine follows_reg r (follows_bind h hO (quiet_ask (hH.accordRead _)) fun body vm' h' hO' => ?_)
  cases body with
  | none =>
    simp only [Follows, wp_bind, wp_setReg, wp_store]
    exact ⟨fun _ => ⟨_, List.mem_singleton_self _, (h'.set dst (by simp)).set 1 (by simp)⟩, hO'⟩
  | some body =>
    simp only [Follows, wp_bind, wp_setReg, wp_store]
    exact ⟨fun _ => ⟨_, List.mem_singleton_self _, (h'.set dst (by simp)).set 1 (by simp)⟩, hO'⟩

include hH in
/-- **An instruction follows the machine without a host.** -/
theorem exec_follows (h : Sim c vm) (hO : O vm.host) (cell : CellBytecode) (op : Op)
    (hok : ∀ a, accessOf vm.regs op = some a → ok a) :
    Follows O (exec H cell op) (absExec cell op c) vm := by
  cases op
  case call t => exact follows_call h hO cell t
  case «return» => exact follows_return h hO cell
  case loadConst dst idx => exact follows_loadConst h hO cell dst idx
  case swap a b => exact follows_swap h hO cell a b
  case accordRead dst r => exact follows_accordRead hH h hO cell dst r
  all_goals simp only [exec, absExec]
  case add | sub | mul => exact follows_arith3 h hO _ _ _ _
  case div | mod => exact follows_divide h hO _ _ _ _
  case addSat | subSat | and | or | xor => exact follows_bitwise3 h hO _ _ _ _
  case eq | ne | lt | lte | gt | gte => exact follows_cmp3 h hO _ _ _ _
  case not | shl | shr | isZero => exact follows_reg _ (follows_value h hO _ fun _ => h.one)
  case jump t => exact follows_jump h hO cell t
  case jumpIf r t =>
    exact follows_reg r (follows_branch h r Word.isZero
      (follows_quiet h hO (quiet_pure _)) (follows_jump h hO cell t))
  case jumpIfNot r t =>
    exact follows_reg r (follows_branch h r Word.isZero
      (follows_jump h hO cell t) (follows_quiet h hO (quiet_pure _)))
  case halt => simpa [Follows] using hO
  case trap => exact follows_throw hO _ _
  case loadImm8 | loadImm64 => exact follows_value h hO _ (by simp)
  case move dst src => exact follows_reg src (follows_value h hO dst (h.agrees src))
  case sload dst key =>
    exact follows_reg key
      (follows_answer h hO (quiet_ask fun s => hH.storageRead _ s (hok _ rfl)) _ dst)
  case sstore key val =>
    exact follows_reg key (follows_reg val (follows_quiet h hO (quiet_bind
      (quiet_ask fun s => hH.storageWrite _ _ s (hok _ rfl)) fun _ => quiet_pure _)))
  case sdelete key =>
    exact follows_reg key (follows_quiet h hO (quiet_bind
      (quiet_ask fun s => hH.storageDelete _ s (hok _ rfl)) fun _ => quiet_pure _))
  case getCaller | getOwner | getCellId | getHeight | getTimestamp | getValue | getCalldataLen =>
    exact follows_answer h hO (quiet_view _) _ _
  case getCalldata =>
    exact follows_bind h hO (quiet_view _) fun _ _ h' hO' => follows_answer h' hO' (quiet_reg _) _ _
  case hash32 => exact follows_answer h hO (quiet_reg _) _ _
  case hash32Const => exact follows_answer h hO (quiet_getConst _ _) _ _
  case tokenBalance =>
    exact follows_reg _ (follows_reg _ (follows_answer h hO (quiet_ask (hH.tokenBalance _ _)) _ _))
  case requireEq | requireNe | requireLt =>
    exact follows_reg _ (follows_reg _ (follows_require h hO _ fun _ => h.both))
  case requireNonZero r =>
    refine follows_reg r (follows_require h hO _ fun b hb => ?_)
    obtain ⟨x, hx, rfl⟩ := Option.map_eq_some_iff.mp hb
    rw [h.agrees r x hx]
  case callCell =>
    refine follows_bind h hO quiet_get fun _ vm₁ h₁ hO₁ =>
      follows_ite _ (follows_throw_bind hO₁ _ _ _) ?_
    refine follows_reg _ (follows_bind h₁ hO₁ (quiet_getConst _ _) fun e vm₂ h₂ hO₂ => ?_)
    refine follows_reg _ (follows_reg _ (follows_reg _ ?_))
    exact follows_bind h₂ hO₂ quiet_get fun _ _ h₃ hO₃ => follows_callHost hH h₃ hO₃ _ _ _ _
  case bufCallCell =>
    refine follows_bind h hO quiet_get fun _ vm₁ h₁ hO₁ =>
      follows_ite _ (follows_throw_bind hO₁ _ _ _) ?_
    refine follows_reg _ (follows_bind h₁ hO₁ quiet_get fun _ vm₂ h₂ hO₂ => follows_reg _ ?_)
    exact follows_bind h₂ hO₂ quiet_get fun _ _ h₃ hO₃ => follows_callHost hH h₃ hO₃ _ _ _ _
  case accordRequest =>
    refine follows_reg _ (follows_bind h hO (quiet_getConst _ _) fun _ vm₁ h₁ hO₁ =>
      follows_reg _ ?_)
    refine follows_bind h₁ hO₁ (quiet_getConst _ _) fun _ vm₂ h₂ hO₂ => follows_reg _ ?_
    exact follows_answer h₂ hO₂ (quiet_ask (hH.accordRequest _ _ _)) _ _
  -- the rest touches neither the registers nor the position
  all_goals
    refine follows_quiet h hO ?_
    repeat' with_reducible first
      | exact quiet_pure _
      | exact quiet_throw_bind _ _
      | exact quiet_append _ _
      | refine quiet_bind ?_ fun _ => ?_
      | refine quiet_ite _ ?_ ?_
      | exact quiet_reg _
      | exact quiet_view _
      | exact quiet_get
      | exact quiet_require _ _
      | exact quiet_charge _
      | exact quiet_ask (hH.setReturnData _)
      | exact quiet_ask (hH.emitLog _)
      | exact quiet_ask (hH.tokenTransfer _ _ _ _)
      | exact quiet_ask (hH.tokenMint _ _ _)
      | exact quiet_ask (hH.tokenBurn _ _ _)
      | exact quiet_ask (hH.tokenFreeze _ _)
      | exact quiet_ask (hH.tokenThaw _ _)
      | exact quiet_getConst _ _
      | exact quiet_modify fun _ => ⟨⟨rfl, rfl, rfl⟩, rfl⟩

include hH in
/-- One turn of the loop follows the machine without a host. -/
theorem step_follows (h : Sim c vm) (hO : O vm.host) (cell : CellBytecode) {tag : UInt8}
    (htag : cell.code[vm.pc]? = some tag)
    (hok : ∀ op pc, opAt cell c.pc = some (op, pc) → ∀ a, accessOf vm.regs op = some a → ok a) :
    Follows O (step H cell tag) (absStep cell c) vm := by
  have hop : opAt cell c.pc = (operands tag.toNat).bind fun rd => rd cell.code (vm.pc + 1) := by
    unfold opAt
    rw [h.pc, htag, Option.bind_some]
  unfold Follows step
  simp only [wp_bind, wp_modify]
  cases hrd : operands tag.toNat with
  | none => simpa only [wp_throw] using hO
  | some rd =>
    simp only [wp_bind, wp_charge, wp_get]
    refine ⟨fun _ => hO, fun _ => ?_⟩
    rw [hrd, Option.bind_some] at hop
    cases hrun : rd cell.code (vm.pc + 1) with
    | none => simpa only [wp_throw] using hO
    | some opc =>
      obtain ⟨op, pc⟩ := opc
      rw [hrun] at hop
      simp only [wp_bind, wp_modify]
      have hs : Sim { c with pc := pc } { vm with pc := pc, gas := vm.gas - fixedCost tag.toNat } :=
        ⟨rfl, h.callStack, h.agrees⟩
      have := exec_follows hH hs hO cell op fun a ha => hok op pc hop a ha
      unfold absStep
      rw [hop]
      exact this

include hH in
/-- **A run keeps `O`** if the accesses on every path of the machine without a host are `ok`. -/
theorem runLoop_keeps (cell : CellBytecode)
    (hok : ∀ (c : Cfg) (vm : Vm σ), Reach cell c → Sim c vm → ∀ op pc, opAt cell c.pc = some (op, pc) →
      ∀ a, accessOf vm.regs op = some a → ok a) :
    ∀ (fuel : ℕ) (c : Cfg) (vm : Vm σ), Reach cell c → Sim c vm → O vm.host →
      wp (runLoop H cell fuel) (fun _ vm' => O vm'.host) (fun _ vm' => O vm'.host) vm
  | 0, _, _, _, _, hO => by
    unfold runLoop
    simpa only [wp_throw] using hO
  | fuel + 1, c, vm, hc, h, hO => by
    unfold runLoop
    simp only [wp_bind, wp_get]
    cases htag : cell.code[vm.pc]? with
    | none => simpa only [wp_pure] using hO
    | some tag =>
      simp only [wp_bind]
      refine wp_mono (step_follows hH h hO cell htag (hok c vm hc h)) ?_ fun _ _ hE => hE
      rintro fl vm' ⟨hnext, hO'⟩
      cases fl with
      | halt => simpa only [wp_pure] using hO'
      | next =>
        obtain ⟨c', hc', h'⟩ := hnext rfl
        exact runLoop_keeps cell hok fuel c' vm' (hc.step hc') h' hO'

include hH in
/-- A whole run keeps `O`. -/
theorem execute_keeps (cell : CellBytecode)
    (hok : ∀ (c : Cfg) (vm : Vm σ), Reach cell c → Sim c vm → ∀ op pc, opAt cell c.pc = some (op, pc) →
      ∀ a, accessOf vm.regs op = some a → ok a) {host : σ} (hO : O host) (gasLimit depth : ℕ) :
    O (execute H cell host gasLimit depth).2 := by
  have hrun := runLoop_keeps hH cell hok (gasLimit + 1) Cfg.init (Vm.new host gasLimit depth) .init
    ⟨rfl, rfl, fun _ _ h => Option.some.inj h⟩ hO
  unfold execute
  unfold wp outcome at hrun
  revert hrun
  rcases (runLoop H cell (gasLimit + 1)).run (Vm.new host gasLimit depth) with ⟨_ | _, vm⟩
  · exact id
  · exact id

end Follows

/-! ### The log of accesses -/

/-- A host method that leaves the log alone. -/
def unlogged {σ α : Type} (f : σ → Answer σ α) (s : σ × List Access) : Answer (σ × List Access) α :=
  ((f s.1).1, ((f s.1).2, s.2))

/-- A host method whose access is logged. -/
def logging {σ α : Type} (a : Access) (f : σ → Answer σ α) (s : σ × List Access) :
    Answer (σ × List Access) α :=
  ((f s.1).1, ((f s.1).2, s.2 ++ [a]))

/-- The same host, with a log of the keys passed to its storage methods. -/
def logged {σ : Type} (H : Host σ) : Host (σ × List Access) where
  storageRead k := logging (.read k) (H.storageRead k)
  storageWrite k v := logging (.write k) (H.storageWrite k v)
  storageDelete k := logging (.write k) (H.storageDelete k)
  caller s := H.caller s.1
  owner s := H.owner s.1
  cellId s := H.cellId s.1
  height s := H.height s.1
  timestamp s := H.timestamp s.1
  value s := H.value s.1
  calldata s := H.calldata s.1
  setReturnData d := unlogged (H.setReturnData d)
  emitLog l := unlogged (H.emitLog l)
  callCell c d v g := unlogged (H.callCell c d v g)
  sha256 := H.sha256
  accordRequest u m b := unlogged (H.accordRequest u m b)
  accordRead r := unlogged (H.accordRead r)
  tokenBalance t a := unlogged (H.tokenBalance t a)
  tokenTransfer t a b n := unlogged (H.tokenTransfer t a b n)
  tokenMint t a n := unlogged (H.tokenMint t a n)
  tokenBurn t a n := unlogged (H.tokenBurn t a n)
  tokenFreeze t a := unlogged (H.tokenFreeze t a)
  tokenThaw t a := unlogged (H.tokenThaw t a)
  maxReturnData := H.maxReturnData
  maxLogData := H.maxLogData
  maxLogTopics := H.maxLogTopics
  maxCallDepth := H.maxCallDepth

/-- The accesses of a run on a fresh VM, in order. -/
def accesses {σ : Type} (H : Host σ) (cell : CellBytecode) (host : σ) (gasLimit depth : ℕ) :
    List Access :=
  (execute (logged H) cell (host, []) gasLimit depth).2.2

theorem logged_keeps {σ : Type} (H : Host σ) (ok : Access → Prop) :
    Host.Keeps (logged H) (fun s => ∀ a ∈ s.2, ok a) ok := by
  have happ : ∀ (l : List Access) (a : Access), ok a → (∀ b ∈ l, ok b) → ∀ b ∈ l ++ [a], ok b := by
    intro l a ha hl b hb
    rcases List.mem_append.mp hb with hb | hb
    · exact hl b hb
    · rw [List.mem_singleton.mp hb]
      exact ha
  exact ⟨fun k s hk hs => happ s.2 _ hk hs, fun k v s hk hs => happ s.2 _ hk hs,
    fun k s hk hs => happ s.2 _ hk hs, fun _ _ hs => hs, fun _ _ hs => hs, fun _ _ _ _ _ hs => hs,
    fun _ _ _ _ hs => hs, fun _ _ hs => hs, fun _ _ _ hs => hs, fun _ _ _ _ _ hs => hs,
    fun _ _ _ _ hs => hs, fun _ _ _ _ hs => hs, fun _ _ _ hs => hs, fun _ _ _ hs => hs⟩

/-- What is known of the access of an instruction. -/
def knownAccess (k : Known) : Op → Option (Option Access)
  | .sload _ key => some ((k key).map .read)
  | .sstore key _ | .sdelete key => some ((k key).map .write)
  | _ => none

/-- Every storage access on a path of the machine without a host has a known key, and is `ok`. -/
def Resolved (cell : CellBytecode) (ok : Access → Prop) : Prop :=
  ∀ c, Reach cell c → ∀ op pc, opAt cell c.pc = some (op, pc) →
    ∀ o, knownAccess c.known op = some o → ∃ a, o = some a ∧ ok a

theorem accessOf_eq {k : Known} {regs : Reg → Bytes32} (h : Agrees k regs) {op : Op} {a : Access}
    (ha : accessOf regs op = some a) :
    ∃ o, knownAccess k op = some o ∧ ∀ b, o = some b → b = a := by
  have hkey : ∀ (r : Reg) (f : Bytes32 → Access), f (regs r) = a →
      ∀ b, (k r).map f = some b → b = a := by
    intro r f hf b hb
    obtain ⟨v, hv, rfl⟩ := Option.map_eq_some_iff.mp hb
    rw [← hf, h r v hv]
  cases op with
  | sload dst key => exact ⟨_, rfl, hkey key .read (Option.some.inj ha)⟩
  | sstore key val => exact ⟨_, rfl, hkey key .write (Option.some.inj ha)⟩
  | sdelete key => exact ⟨_, rfl, hkey key .write (Option.some.inj ha)⟩
  | _ => cases ha

/-- **Every access of every run is `ok`**, on any host, if the accesses of the program are resolved
without a host. -/
theorem accesses_ok {σ : Type} {cell : CellBytecode} {ok : Access → Prop} (hr : Resolved cell ok)
    (H : Host σ) (host : σ) (gasLimit depth : ℕ) :
    ∀ a ∈ accesses H cell host gasLimit depth, ok a := by
  refine execute_keeps (logged_keeps H ok) cell (fun c vm hc h op pc hop a ha => ?_) (by simp) gasLimit depth
  obtain ⟨o, ho, hob⟩ := accessOf_eq h.agrees ha
  obtain ⟨b, rfl, hb⟩ := hr c hc op pc hop o ho
  rw [← hob b rfl]
  exact hb

end TruthLinked.Axiom.HostFree
