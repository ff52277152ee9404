import TruthLinked.Axiom.Machine
import TruthLinked.Axiom.WordValue
import TruthLinked.Compiler.StorageLayout
import TruthLinked.Compiler.TypeCheck
import Mathlib.Logic.Relation

/-! # The dispatch table of a cell

The lowered program compares the first four bytes of the calldata with the selector of `init` and of each
public function, in the order of their declaration, jumps to the handler of the first that is equal, and traps
with code 1 when none is. A handler is lowered from the body that is found under the name once more, among the
private functions too. So the table is exact when each entry is the one found under the name of the first
entry with its selector, and no two of its parameters share a name (`dispatch_exact_iff`). -/

namespace TruthLinked.Compiler.Dispatch

open Core.Types Core.Bytes Consensus.Types Axiom Axiom.Word Axiom.WordValue Compiler.Ast Compiler.Lower
open Compiler.Frames Compiler.TypeCheck
open Axiom.Machine (calldataWord)
open Compiler.StorageLayout (Regs)
open Lib.Table (getElem?_insert_ite)
open Function (update)
open Relation (ReflTransGen)

variable {s s' : Lowerer} {l : Label} {bs : Bytes} {regs : Regs} {code : List Ir}

/-! ## Runs between labels -/

/-- The code that is left, and the registers. -/
structure Conf where
  code : List Ir
  regs : Regs

/-- The code from a label on. The last place counts, since `CellBuilder::label` overwrites the earlier
ones. -/
def findLabel (l : Label) : List Ir → Option (List Ir)
  | [] => none
  | ir :: code => (findLabel l code).or (if ir = .label l then some (ir :: code) else none)

/-- The instructions of the table, and of the parameters, that write a register. -/
def execIr (cd : Bytes) (regs : Regs) : Ir → Option Regs
  | .loadImm8 d imm => some (update regs d (padRight [UInt8.ofNat imm]))
  | .loadImm64 d imm => some (update regs d (padRight (leBytes 8 imm)))
  | .loadConst d data => some (update regs d (padRight (data.take 32)))
  | .getCalldata d off => some (update regs d (calldataWord cd (lowBytes 8 (regs off))))
  | .and d a b => some (update regs d (to32 (Word.and (u256 (regs a)) (u256 (regs b)))))
  | .eq d a b => some (update regs d (bval (regs a == regs b)))
  | _ => none

/-- A step of `prog`. It stops at a label, where a handler begins. -/
def step (prog : List Ir) (cd : Bytes) : Conf → Option Conf
  | ⟨.jumpIf c l :: code, regs⟩ =>
    if isZero (regs c) then some ⟨code, regs⟩ else (findLabel l prog).map fun code => ⟨code, regs⟩
  | ⟨ir :: code, regs⟩ => (execIr cd regs ir).map fun regs => ⟨code, regs⟩
  | ⟨[], _⟩ => none

/-- The run goes from one configuration to the other, over no label. -/
def Runs (prog : List Ir) (cd : Bytes) : Conf → Conf → Prop :=
  ReflTransGen fun c c' => step prog cd c = some c'

/-- Instructions that write registers, one after another. -/
def execAll (cd : Bytes) (code : List Ir) (regs : Regs) : Option Regs := code.foldlM (execIr cd) regs

/-! ## Entries -/

/-- `init`, or a public function. -/
structure Entry where
  name : String
  params : List Param
  body : List Stmt

/-- What the calldata can ask for. -/
def entries (cell : CellDef) : List Entry :=
  (cell.init.map fun i => ⟨"init", i.params, i.body⟩).toList ++
    (cell.fns.filter FnDef.isPublic).map fun f => ⟨f.name, f.params, f.body⟩

/-- The parameters and the body that are found under a name when its handler is lowered. -/
def handlerSource (cell : CellDef) (name : String) : Option (List Param × List Stmt) :=
  if name = "init" then cell.init.map fun i => (i.params, i.body)
  else (cell.fns.find? fun f => f.name = name).map fun f => (f.params, f.body)

/-- `Lowerer::lower` up to the trap: the names of the table and the labels of their handlers. -/
def lowerTable (cell : CellDef) : LowerM (List (String × Label)) := do
  let publics := cell.fns.filter FnDef.isPublic
  let privates := cell.fns.filter fun f => !f.isPublic
  reserveHelpers privates
  let vCd ← vreg
  let vOff ← vreg
  let vSel ← vreg
  let vMask ← vreg
  let vMcd ← vreg
  let vCond ← vreg
  push (.loadImm8 vOff 0)
  push (.getCalldata vCd vOff)
  push (.loadConst vMask (List.replicate 4 0xFF ++ List.replicate 28 0))
  push (.and vMcd vCd vMask)
  let names := (if cell.init.isSome then ["init"] else []) ++ publics.map FnDef.name
  let handlers ← names.mapM (dispatchTo vSel vMcd vCond)
  push (.trap 1)
  pure handlers

theorem lowerCell_eq (prim : Primitives) (cell : CellDef) :
    lowerCell prim cell = (do
      let handlers ← lowerTable cell
      handlers.forM fun h => lowerHandler prim cell h.1 h.2
      (cell.fns.filter fun f => !f.isPublic).forM (lowerHelper prim)) := by
  simp only [lowerCell, lowerTable, bind_assoc, pure_bind]

section Exactness
variable (prim : Primitives) (cell : CellDef)

/-- In state `s` the lowerer comes to the body of the handler at label `l`. -/
def AtBody (l : Label) (params : List Param) (body : List Stmt) (scope : Scope) (s : Lowerer) : Prop :=
  ∃ handlers s₀ before name after s₁, lowerTable cell (Lowerer.new prim cell) = some (handlers, s₀) ∧
    handlers = before ++ (name, l) :: after ∧
    (before.forM fun h => lowerHandler prim cell h.1 h.2) s₀ = some ((), s₁) ∧
    handlerSource cell name = some (params, body) ∧
    loadParams params.zipIdx ∅ { s₁ with ir := s₁.ir ++ [.label l] } = some (scope, s)

/-- The program enters the body of an entry, with each parameter bound to its word of the calldata. -/
def Enters (prog : List Ir) (cd : Bytes) (e : Entry) : Prop :=
  ∃ l loads rest regs regs' scope s, Runs prog cd ⟨prog, fun _ => 0⟩ ⟨.label l :: (loads ++ rest), regs⟩ ∧
    execAll cd loads regs = some regs' ∧ AtBody prim cell l e.params e.body scope s ∧ prog = s.ir ++ rest ∧
    ∀ i p, e.params[i]? = some p → ∃ v, scope[p.name]? = some v ∧ regs' v = calldataWord cd (4 + 32 * i)

/-- The program traps with code 1 before it comes to a handler. -/
def Traps (prog : List Ir) (cd : Bytes) : Prop :=
  ∃ code regs, Runs prog cd ⟨prog, fun _ => 0⟩ ⟨.trap 1 :: code, regs⟩

/-- **Dispatch is exact.** -/
structure Exact (prog : List Ir) : Prop where
  enters : ∀ cd : Bytes, 4 ≤ cd.length → ∀ e ∈ entries cell, selectorOf e.name = cd.take 4 →
    Enters prim cell prog cd e
  traps : ∀ cd : Bytes, 4 ≤ cd.length → (Traps prog cd ↔ ∀ e ∈ entries cell, selectorOf e.name ≠ cd.take 4)
  reachable : ∀ e ∈ entries cell, ∃ cd : Bytes, 4 ≤ cd.length ∧ Enters prim cell prog cd e

/-- The first entry with a selector. -/
def firstWith (selector : Bytes) : Option Entry := (entries cell).find? fun e => selectorOf e.name = selector

/-- Each entry is what is found under the name of the first entry with its selector; its parameters have names
of their own, and offsets of 64 bits. -/
structure Unambiguous : Prop where
  source : ∀ e ∈ entries cell, ∀ e₀, firstWith cell (selectorOf e.name) = some e₀ →
    handlerSource cell e₀.name = some (e.params, e.body)
  names : ∀ e ∈ entries cell, (e.params.map Param.name).Nodup
  offsets : ∀ e ∈ entries cell, e.params.length ≤ 2 ^ 59

end Exactness

/-! ## Handlers -/

section Handlers
variable (prim : Primitives) (cell : CellDef)

/-- A handler behind its label. -/
def handlerBody (name : String) : LowerM Unit := do
  if name = "init" then
    match cell.init with
    | some init => lowerBody prim init.body (← loadParams init.params.zipIdx ∅)
    | none => pure ()
  else
    let f ← expect (cell.fns.find? fun f => f.name = name)
    lowerBody prim f.body (← loadParams f.params.zipIdx ∅)
  push .halt

theorem lowerHandler_eq (name : String) (l : Label) :
    lowerHandler prim cell name l = push (.label l) >>= fun _ => handlerBody prim cell name := rfl

theorem handlerBody_eq {name : String} {params : List Param} {body : List Stmt}
    (h : handlerSource cell name = some (params, body)) : handlerBody prim cell name = (do
      let scope ← loadParams params.zipIdx ∅
      lowerBody prim body scope
      push .halt) := by
  unfold handlerSource at h
  unfold handlerBody
  split_ifs at h with hname
  · obtain ⟨init, hinit, hsource⟩ := Option.map_eq_some_iff.mp h
    obtain ⟨rfl, rfl⟩ := Prod.mk.inj hsource
    rw [if_pos hname, hinit]
  · obtain ⟨f, hf, hsource⟩ := Option.map_eq_some_iff.mp h
    obtain ⟨rfl, rfl⟩ := Prod.mk.inj hsource
    rw [if_neg hname, hf]
    rfl

section Keeps
variable {R : Lowerer → Lowerer → Prop} {Ok : Label → Prop} (hR : Adding R Ok)
include hR

theorem keeps_handlerBody (name : String) : Keeps R (handlerBody prim cell name) := by
  have hhalt : Keeps R (push .halt) := hR.keeps_push rfl
  have hbody (params : List Param) (body : List Stmt) : Keeps R (do
      let scope ← loadParams params.zipIdx ∅
      lowerBody prim body scope
      push .halt) :=
    hR.keeps_bind (hR.keeps (follows_loadParams hR.toEmitting _ _)) fun scope =>
      hR.keeps_bind (keeps_lowerBody prim hR body scope) fun _ => hhalt
  unfold handlerBody
  split_ifs with hname
  · cases cell.init with
    | none => exact hhalt
    | some init => exact hbody init.params init.body
  · exact hR.keeps_bind (hR.keeps_expect _) fun f => hbody f.params f.body

theorem keeps_lowerHandler (name : String) (hl : Ok l) : Keeps R (lowerHandler prim cell name l) := by
  rw [lowerHandler_eq]
  exact hR.keeps_bind (hR.keeps_mark hl) fun _ => keeps_handlerBody prim cell hR name

theorem keeps_lowerHelper {f : FnDef}
    (hok : ∀ helper, s.helpers[f.name]? = some helper → Ok helper.1) (h : lowerHelper prim f s = some ((), s')) :
    R s s' := by
  obtain ⟨t, t', hget, h⟩ := bind_eq_some.mp h
  obtain ⟨rfl, rfl⟩ := Prod.mk.inj (Option.some.inj hget)
  obtain ⟨⟨l, vs, v⟩, t', hexpect, h⟩ := bind_eq_some.mp h
  obtain ⟨helper, hhelper, hfound⟩ := Option.map_eq_some_iff.mp hexpect
  obtain ⟨rfl, rfl⟩ := Prod.mk.inj hfound
  have hrest : Keeps R (do
      push (.label l)
      lowerBody prim f.body ((f.params.zip vs).foldl (fun m e => m.insert e.1.name e.2) ∅)
      push .return) :=
    hR.keeps_bind (hR.keeps_mark (hok _ hhelper)) fun _ =>
      hR.keeps_bind (keeps_lowerBody prim hR f.body _) fun _ => hR.keeps_push rfl
  exact hrest _ _ _ h

end Keeps

end Handlers

/-! ## Code and labels that are added -/

/-- Code is appended. -/
def Extends (s s' : Lowerer) : Prop := s.ir <+: s'.ir

theorem adding_extends : Adding Extends fun _ => True where
  refl _ := List.prefix_refl _
  trans h h' := List.IsPrefix.trans h h'
  takes _ := List.prefix_refl _
  appends _ _ _ := List.prefix_append _ _
  labels hf s b s' h := by
    obtain ⟨l, t, hl, hb⟩ := bind_eq_some.mp h
    obtain ⟨rfl, rfl⟩ := Prod.mk.inj (Option.some.inj hl)
    have hrest := hf _ trivial _ _ _ hb
    exact hrest
  marks _ _ _ := List.prefix_append _ _
  loops _ _ _ := List.prefix_refl _

section Labels
variable {k : Label}

/-- The label is taken, and not by a private function. -/
structure Handled (k : Label) (s : Lowerer) : Prop where
  taken : k < s.nextLabel
  helpers : ∀ (name : String) (h : Label × List VReg × VReg), s.helpers[name]? = some h → h.1 ≠ k

/-- The code that is added does not have the label of a handler. -/
def Avoids (k : Label) (s s' : Lowerer) : Prop :=
  Handled k s → Handled k s' ∧ ∃ code, s'.ir = s.ir ++ code ∧ .label k ∉ code

theorem Avoids.of_ir (hir : s'.ir = s.ir) (h : Handled k s → Handled k s') : Avoids k s s' :=
  fun hk => ⟨h hk, [], hir.trans (List.append_nil _).symm, List.not_mem_nil⟩

theorem Avoids.trans {t u : Lowerer} (h : Avoids k s t) (h' : Avoids k t u) : Avoids k s u := by
  intro hk
  obtain ⟨ht, code, hcode, hnot⟩ := h hk
  obtain ⟨hu, code', hcode', hnot'⟩ := h' ht
  refine ⟨hu, code ++ code', ?_, List.not_mem_append hnot hnot'⟩
  rw [hcode', hcode, List.append_assoc]

theorem avoids_append (s : Lowerer) {ir : Ir} (h : ir ≠ .label k) : Avoids k s { s with ir := s.ir ++ [ir] } :=
  fun hk => ⟨⟨hk.taken, hk.helpers⟩, [ir], rfl, fun hmem => h (List.mem_singleton.mp hmem).symm⟩

/-- A label that is taken now is not one that was taken before. -/
theorem adding_avoids : Adding (Avoids k) fun l => l ≠ k where
  refl _ := .of_ir rfl fun hk => hk
  trans := Avoids.trans
  takes _ := .of_ir rfl fun hk => ⟨hk.taken, hk.helpers⟩
  appends s ir h := avoids_append s fun hir => by
    rw [hir] at h
    cases h
  labels hf s b s' h hk := by
    obtain ⟨l, t, hl, hb⟩ := bind_eq_some.mp h
    obtain ⟨rfl, rfl⟩ := Prod.mk.inj (Option.some.inj hl)
    have hrest := hf s.nextLabel hk.taken.ne' _ b s' hb
    exact hrest ⟨Nat.lt_succ_of_lt hk.taken, hk.helpers⟩
  marks s l hl := avoids_append s fun hir => hl (Ir.label.inj hir)
  loops _ _ _ := .of_ir rfl fun hk => ⟨hk.taken, hk.helpers⟩

theorem avoids_helpers (prim : Primitives) (fns : List FnDef)
    (h : fns.forM (lowerHelper prim) s = some ((), s')) : Avoids k s s' := by
  induction fns generalizing s with
  | nil => exact adding_avoids.keeps_pure () s () s' h
  | cons f fns ih =>
    obtain ⟨⟨⟩, t, hf, hrest⟩ := bind_eq_some.mp h
    intro hk
    exact (keeps_lowerHelper prim adding_avoids (fun helper => hk.helpers f.name helper) hf).trans (ih hrest) hk

end Labels

/-! ## The table -/

/-- The comparisons of the table; the handlers have consecutive labels. -/
def tableCode (vSel vMcd vCond : VReg) : Label → List String → List Ir
  | _, [] => []
  | l, name :: names => .loadConst vSel (selectorOf name ++ List.replicate 28 0) :: .eq vCond vMcd vSel ::
      .jumpIf vCond l :: tableCode vSel vMcd vCond (l + 1) names

theorem paramVRegs_run (params : List Param) (s : Lowerer) : paramVRegs params s =
    some (List.range' s.nextVReg params.length, { s with nextVReg := s.nextVReg + params.length }) := by
  induction params generalizing s with
  | nil => rfl
  | cons p params ih =>
    refine bind_eq_some.mpr ⟨s.nextVReg, { s with nextVReg := s.nextVReg + 1 }, rfl, ?_⟩
    refine bind_eq_some.mpr ⟨_, _, ih _, ?_⟩
    have hnext := Nat.add_right_comm s.nextVReg params.length 1
    rw [List.length_cons, List.range'_succ, ← Nat.add_assoc, hnext]
    rfl

theorem reserveHelpers_spec (fns : List FnDef) (s : Lowerer)
    (h : ∀ (name : String) (e : Label × List VReg × VReg), s.helpers[name]? = some e → e.1 < s.nextLabel) :
    ∃ s', reserveHelpers fns s = some ((), s') ∧ s'.ir = s.ir ∧
      ∀ (name : String) (e : Label × List VReg × VReg), s'.helpers[name]? = some e → e.1 < s'.nextLabel := by
  induction fns generalizing s with
  | nil => exact ⟨s, rfl, rfl, h⟩
  | cons f fns ih =>
    have hnext : ∀ (name : String) (e : Label × List VReg × VReg),
        (s.helpers.insert f.name (s.nextLabel, List.range' s.nextVReg f.params.length,
          s.nextVReg + f.params.length))[name]? = some e → e.1 < s.nextLabel + 1 := by
      intro name e he
      rw [getElem?_insert_ite] at he
      split_ifs at he with hname
      · rw [← Option.some.inj he]
        exact Nat.lt_succ_self _
      · exact Nat.lt_succ_of_lt (h name e he)
    obtain ⟨s', hrun, hir, hlabels⟩ := ih ⟨s.ir, s.nextVReg + f.params.length + 1, s.nextLabel + 1, s.slotKeys,
      s.errorCodes, _, s.breakStack, s.continueStack⟩ hnext
    refine ⟨s', ?_, hir, hlabels⟩
    refine bind_eq_some.mpr ⟨s.nextLabel, _, rfl, bind_eq_some.mpr ⟨_, _, paramVRegs_run f.params _, ?_⟩⟩
    exact hrun

theorem mapM_dispatchTo (vSel vMcd vCond : VReg) (names : List String) (s : Lowerer) :
    names.mapM (dispatchTo vSel vMcd vCond) s = some (names.zipIdx s.nextLabel,
      { s with ir := s.ir ++ tableCode vSel vMcd vCond s.nextLabel names
               nextLabel := s.nextLabel + names.length }) := by
  induction names generalizing s with
  | nil =>
    rw [List.mapM_nil, tableCode, List.append_nil]
    rfl
  | cons name names ih =>
    rw [List.mapM_cons]
    refine bind_eq_some.mpr ⟨(name, s.nextLabel), _, rfl, bind_eq_some.mpr ⟨_, _, ih _, ?_⟩⟩
    simp only [tableCode, List.zipIdx_cons, List.length_cons, List.append_assoc,
      List.cons_append, List.nil_append]
    rw [Nat.add_comm names.length 1, ← Nat.add_assoc]
    rfl

/-- The mask of the first four bytes. -/
def maskBytes : Bytes := List.replicate 4 0xFF ++ List.replicate 28 0

/-- The instructions before the comparisons, on registers from `r` on. -/
def preludeCode (r : VReg) : List Ir :=
  [.loadImm8 (r + 1) 0, .getCalldata r (r + 1), .loadConst (r + 3) maskBytes, .and (r + 4) r (r + 3)]

/-- The comparisons, and the trap behind them. -/
def lowerEntries (names : List String) : LowerM (List (String × Label)) := fun s => (do
  let handlers ← names.mapM (dispatchTo (s.nextVReg + 2) (s.nextVReg + 4) (s.nextVReg + 5))
  push (.trap 1)
  pure handlers) { s with ir := (preludeCode s.nextVReg).foldl (fun code ir => code ++ [ir]) s.ir
                          nextVReg := s.nextVReg + 6 }

theorem entryNames (cell : CellDef) : (entries cell).map Entry.name =
    (if cell.init.isSome then ["init"] else []) ++ (cell.fns.filter FnDef.isPublic).map FnDef.name := by
  rw [entries, List.map_append, List.map_map]
  cases cell.init with
  | none => rfl
  | some init => rfl

theorem lowerTable_eq (cell : CellDef) : lowerTable cell =
    reserveHelpers (cell.fns.filter fun f => !f.isPublic) >>= fun _ =>
      lowerEntries ((entries cell).map Entry.name) := by
  rw [entryNames]
  exact bind_congr fun _ => funext fun s => rfl

/-- **The table of a cell.** -/
theorem lowerTable_spec (prim : Primitives) (cell : CellDef) : ∃ r n s,
    lowerTable cell (Lowerer.new prim cell) = some (((entries cell).map Entry.name).zipIdx n, s) ∧
      s.ir = preludeCode r ++ tableCode (r + 2) (r + 4) (r + 5) n ((entries cell).map Entry.name) ++ [.trap 1] ∧
      s.nextLabel = n + (entries cell).length ∧
      ∀ (name : String) (e : Label × List VReg × VReg), s.helpers[name]? = some e → e.1 < n := by
  obtain ⟨s, hrun, hir, hlabels⟩ :=
    reserveHelpers_spec (cell.fns.filter fun f => !f.isPublic) (.new prim cell) (by
    intro name e he
    have : (Lowerer.new prim cell).helpers[name]? = none := Std.ExtTreeMap.getElem?_empty
    rw [this] at he
    cases he)
  have hempty : s.ir = [] := hir
  have hmap := mapM_dispatchTo (s.nextVReg + 2) (s.nextVReg + 4) (s.nextVReg + 5) ((entries cell).map Entry.name)
    { s with ir := preludeCode s.nextVReg, nextVReg := s.nextVReg + 6 }
  obtain ⟨s₀, hs₀⟩ : ∃ s₀ : Lowerer, s₀ = ⟨preludeCode s.nextVReg ++ tableCode (s.nextVReg + 2) (s.nextVReg + 4)
      (s.nextVReg + 5) s.nextLabel ((entries cell).map Entry.name) ++ [.trap 1], s.nextVReg + 6,
    s.nextLabel + ((entries cell).map Entry.name).length, s.slotKeys, s.errorCodes, s.helpers, s.breakStack,
    s.continueStack⟩ := ⟨_, rfl⟩
  have hentries : lowerEntries ((entries cell).map Entry.name) s =
      some (((entries cell).map Entry.name).zipIdx s.nextLabel, s₀) := by
    rw [lowerEntries, hempty, hs₀]
    exact bind_eq_some.mpr ⟨_, _, hmap, rfl⟩
  refine ⟨s.nextVReg, s.nextLabel, s₀, ?_, ?_, ?_, ?_⟩
  · rw [lowerTable_eq]
    exact bind_eq_some.mpr ⟨(), s, hrun, hentries⟩
  · rw [hs₀]
  · rw [hs₀, List.length_map]
  · rw [hs₀]
    exact hlabels

/-! ## Words -/

theorem leBytes_zero (k : ℕ) : leBytes k 0 = List.replicate k 0 := by
  induction k with
  | zero => rfl
  | succ k ih =>
    rw [leBytes, Nat.zero_div, ih]
    rfl

theorem ofBytes32_padRight (h : bs.length ≤ 32) :
    ofBytes32 (padRight bs) = bs ++ List.replicate (32 - bs.length) 0 := by
  refine ofBytes32_toBytes32 ?_
  rw [List.length_append, List.length_replicate]
  omega

theorem lowBytes_padRight (n : ℕ) : lowBytes 8 (padRight (leBytes 8 n)) = n % 2 ^ 64 := by
  have hlen := length_leBytes 8 n
  rw [lowBytes, ofBytes32_padRight (by omega), List.take_left' hlen]
  exact leNat_leBytes_mod 8 n

theorem length_selectorOf (name : String) : (selectorOf name).length = 4 := length_leBytes 4 _

theorem padRight_inj {cs : Bytes} (h : bs.length = cs.length) (hle : bs.length ≤ 32) :
    padRight bs = padRight cs ↔ bs = cs := by
  refine ⟨fun heq => ?_, fun heq => by rw [heq]⟩
  have hbytes := congrArg ofBytes32 heq
  rw [ofBytes32_padRight hle, ofBytes32_padRight (h ▸ hle)] at hbytes
  exact (List.append_inj hbytes h).1

theorem padRight_full (k : ℕ) (h : bs.length + k = 32) :
    padRight (bs ++ List.replicate k 0) = padRight bs := by
  have hk : 32 - bs.length = k := by omega
  rw [padRight, padRight, List.length_append, List.length_replicate, h, hk, Nat.sub_self, List.replicate_zero,
    List.append_nil]

theorem masked (w : Bytes32) :
    to32 (Word.and (u256 w) (u256 (padRight maskBytes))) = padRight ((ofBytes32 w).take 4) := by
  have hmask : u256 (padRight maskBytes) = limbs 0xFFFFFFFF 0 0 0 := by decide
  obtain ⟨low, hlowBytes⟩ : ∃ low, low = (ofBytes32 w).take 4 := ⟨_, rfl⟩
  have hlen : low.length = 4 := by rw [hlowBytes, List.length_take, length_ofBytes32]; rfl
  have hlow := leNat_lt low
  have hback := leBytes_leNat low
  rw [hlen] at hlow hback
  have hlimb : (u256 w)[0].toNat % 2 ^ 32 = leNat low := by
    have hcut : slice (ofBytes32 w) 0 8 = low ++ ((ofBytes32 w).drop 4).take 4 := by
      rw [hlowBytes]
      exact List.take_add (i := 4) (j := 4)
    change leNat (slice (ofBytes32 w) 0 8) % 2 ^ 64 % 2 ^ 32 = leNat low
    rw [hcut, leNat_append, hlen]
    omega
  have hvalue : value (Word.and (u256 w) (limbs 0xFFFFFFFF 0 0 0)) = leNat low := by
    have hget : ∀ (a b : Limbs) (i : ℕ) (h : i < 4), (Word.and a b)[i] = a[i] &&& b[i] :=
      fun a b i h => Vector.getElem_zipWith h
    have hfirst : ((u256 w)[0] &&& 0xFFFFFFFF#64).toNat = (u256 w)[0].toNat % 2 ^ 32 :=
      (BitVec.toNat_and _ _).trans (Nat.and_two_pow_sub_one_eq_mod _ 32)
    have hzero : ∀ x : BitVec 64, (x &&& 0#64).toNat = 0 := fun x => by rw [BitVec.and_zero]; rfl
    rw [value, hget _ _ 0 (by omega), hget _ _ 1 (by omega), hget _ _ 2 (by omega), hget _ _ 3 (by omega)]
    change ((u256 w)[0] &&& 0xFFFFFFFF#64).toNat + 2 ^ 64 * ((u256 w)[1] &&& 0#64).toNat +
      2 ^ 128 * ((u256 w)[2] &&& 0#64).toNat + 2 ^ 192 * ((u256 w)[3] &&& 0#64).toNat = leNat low
    rw [hfirst, hzero, hzero, hzero, hlimb]
    omega
  rw [hmask, to32_eq, hvalue, register, leBytes_add 4 28, Nat.div_eq_of_lt hlow, leBytes_zero, hback, ← hlowBytes,
    padRight, hlen]

theorem firstBytes {cd : Bytes} (h : 4 ≤ cd.length) : (ofBytes32 (calldataWord cd 0)).take 4 = cd.take 4 := by
  have hslice : slice cd 0 (min (min (0 + 32) (2 ^ 64 - 1)) cd.length) = cd.take 32 := by
    rw [slice, List.drop_zero, Nat.sub_zero]
    exact List.take_eq_take_iff.mpr (by omega)
  have hlen : (cd.take 32).length = min 32 cd.length := List.length_take
  rw [calldataWord, if_pos (by omega), hslice, ofBytes32_padRight (by omega),
    List.take_append_of_le_length (by omega), List.take_take]
  rfl

theorem isZero_bval (b : Bool) : isZero (bval b) = !b := by
  cases b with
  | false => rfl
  | true => rfl

/-! ## Runs -/

section Runs
variable {prog : List Ir} {cd : Bytes}

theorem Runs.unique {c d e : Conf} (hd : Runs prog cd c d) (he : Runs prog cd c e) (hd' : step prog cd d = none)
    (he' : step prog cd e = none) : d = e := by
  have hfun : Relator.RightUnique fun c c' => step prog cd c = some c' :=
    fun _ _ _ h h' => Option.some.inj (h.symm.trans h')
  rcases ReflTransGen.total_of_right_unique hfun hd he with h | h
  · rcases h.cases_head with heq | ⟨x, hx, -⟩
    · exact heq
    · rw [hd'] at hx
      cases hx
  · rcases h.cases_head with heq | ⟨x, hx, -⟩
    · exact heq.symm
    · rw [he'] at hx
      cases hx

theorem runs_prelude (h : 4 ≤ cd.length) (r : VReg) (code : List Ir) (regs : Regs) :
    ∃ regs', Runs prog cd ⟨preludeCode r ++ code, regs⟩ ⟨code, regs'⟩ ∧ regs' (r + 4) = padRight (cd.take 4) := by
  obtain ⟨regs₁, h₁⟩ : ∃ regs₁, regs₁ = update regs (r + 1) (padRight [UInt8.ofNat 0]) := ⟨_, rfl⟩
  obtain ⟨regs₂, h₂⟩ : ∃ regs₂, regs₂ = update regs₁ r (calldataWord cd (lowBytes 8 (regs₁ (r + 1)))) := ⟨_, rfl⟩
  obtain ⟨regs₃, h₃⟩ : ∃ regs₃, regs₃ = update regs₂ (r + 3) (padRight (maskBytes.take 32)) := ⟨_, rfl⟩
  have hrun : Runs prog cd ⟨preludeCode r ++ code, regs⟩
      ⟨code, update regs₃ (r + 4) (to32 (Word.and (u256 (regs₃ r)) (u256 (regs₃ (r + 3)))))⟩ := by
    refine .head (b := ⟨.getCalldata r (r + 1) :: .loadConst (r + 3) maskBytes :: .and (r + 4) r (r + 3) :: code,
      regs₁⟩) (by rw [h₁]; rfl) ?_
    refine .head (b := ⟨.loadConst (r + 3) maskBytes :: .and (r + 4) r (r + 3) :: code, regs₂⟩)
      (by rw [h₂]; rfl) ?_
    exact .head (b := ⟨.and (r + 4) r (r + 3) :: code, regs₃⟩) (by rw [h₃]; rfl) (.single rfl)
  have hoff : lowBytes 8 (regs₁ (r + 1)) = 0 := by
    rw [h₁, Function.update_self]
    decide +kernel
  have hword : regs₃ r = calldataWord cd 0 := by
    rw [h₃, Function.update_of_ne (Nat.ne_of_lt (Nat.lt_add_of_pos_right (by decide))), h₂, Function.update_self,
      hoff]
  refine ⟨_, hrun, ?_⟩
  rw [Function.update_self, hword, h₃, Function.update_self, ← firstBytes h]
  exact masked _

theorem runs_compare {vSel vMcd vCond : VReg} (hsel : vMcd ≠ vSel) (hcond : vMcd ≠ vCond) (h : 4 ≤ cd.length)
    (name : String) (l : Label) (code : List Ir) (hregs : regs vMcd = padRight (cd.take 4)) :
    ∃ regs', Runs prog cd ⟨.loadConst vSel (selectorOf name ++ List.replicate 28 0) :: .eq vCond vMcd vSel ::
        .jumpIf vCond l :: code, regs⟩ ⟨.jumpIf vCond l :: code, regs'⟩ ∧ regs' vMcd = padRight (cd.take 4) ∧
      isZero (regs' vCond) = !decide (selectorOf name = cd.take 4) := by
  have hlen := length_selectorOf name
  obtain ⟨regs₁, h₁⟩ : ∃ regs₁, regs₁ = update regs vSel
    (padRight ((selectorOf name ++ List.replicate 28 0).take 32)) := ⟨_, rfl⟩
  have hword : regs₁ vSel = padRight (selectorOf name) := by
    rw [h₁, Function.update_self, List.take_of_length_le, padRight_full 28 (by omega)]
    rw [List.length_append, List.length_replicate, hlen]
  have hmcd : regs₁ vMcd = padRight (cd.take 4) := by rw [h₁, Function.update_of_ne hsel, hregs]
  have hrun : Runs prog cd ⟨.loadConst vSel (selectorOf name ++ List.replicate 28 0) :: .eq vCond vMcd vSel ::
      .jumpIf vCond l :: code, regs⟩
      ⟨.jumpIf vCond l :: code, update regs₁ vCond (bval (regs₁ vMcd == regs₁ vSel))⟩ :=
    .head (b := ⟨.eq vCond vMcd vSel :: .jumpIf vCond l :: code, regs₁⟩) (by rw [h₁]; rfl) (.single rfl)
  refine ⟨_, hrun, by rw [Function.update_of_ne hcond, hmcd], ?_⟩
  have htake : (cd.take 4).length = (selectorOf name).length := by
    rw [List.length_take, hlen]
    omega
  rw [Function.update_self, isZero_bval, hword, hmcd, beq_eq_decide]
  congr 1
  exact decide_eq_decide.mpr ((padRight_inj htake (by omega)).trans eq_comm)

/-- **A run over the table** goes to the label of the first name with the selector, and otherwise over all of
it. -/
theorem runs_table {vSel vMcd vCond : VReg} (hsel : vMcd ≠ vSel) (hcond : vMcd ≠ vCond) (h : 4 ≤ cd.length)
    (names : List String) (l : Label) (rest : List Ir) (hregs : regs vMcd = padRight (cd.take 4)) :
    ((∀ name ∈ names, selectorOf name ≠ cd.take 4) →
        ∃ regs', Runs prog cd ⟨tableCode vSel vMcd vCond l names ++ rest, regs⟩ ⟨rest, regs'⟩) ∧
      ∀ before name after code, names = before ++ name :: after → (∀ m ∈ before, selectorOf m ≠ cd.take 4) →
        selectorOf name = cd.take 4 → findLabel (l + before.length) prog = some code →
        ∃ regs', Runs prog cd ⟨tableCode vSel vMcd vCond l names ++ rest, regs⟩ ⟨code, regs'⟩ := by
  induction names generalizing l regs with
  | nil =>
    refine ⟨fun _ => ⟨regs, .refl⟩, fun before name after code hnames => ?_⟩
    cases before <;> cases hnames
  | cons first names ih =>
    obtain ⟨regs', hrun, hmcd, hzero⟩ := @runs_compare _ prog cd _ _ _ hsel hcond h first l
      (tableCode vSel vMcd vCond (l + 1) names ++ rest) hregs
    obtain ⟨hnone, hfirst⟩ := ih (l + 1) hmcd
    have hpass (hne : selectorOf first ≠ cd.take 4) : step prog cd
        ⟨.jumpIf vCond l :: (tableCode vSel vMcd vCond (l + 1) names ++ rest), regs'⟩ =
        some ⟨tableCode vSel vMcd vCond (l + 1) names ++ rest, regs'⟩ := by
      rw [decide_eq_false hne] at hzero
      exact if_pos hzero
    refine ⟨fun hall => ?_, fun before name after code hnames hbefore hname hlabel => ?_⟩
    · obtain ⟨regs'', hrest⟩ := hnone fun m hm => hall m (List.mem_cons_of_mem first hm)
      exact ⟨regs'', (hrun.tail (hpass (hall first List.mem_cons_self))).trans hrest⟩
    · cases before with
      | nil =>
        obtain ⟨rfl, rfl⟩ := List.cons.inj hnames
        refine ⟨regs', hrun.tail ?_⟩
        rw [decide_eq_true hname] at hzero
        change (if isZero (regs' vCond) then _ else (findLabel l prog).map fun code => Conf.mk code regs') = _
        rw [if_neg (by rw [hzero]; decide), show findLabel l prog = some code from hlabel]
        rfl
      | cons m before =>
        obtain ⟨rfl, rfl⟩ := List.cons.inj hnames
        rw [List.length_cons, Nat.add_comm before.length 1, ← Nat.add_assoc] at hlabel
        obtain ⟨regs'', hrest⟩ := hfirst before name after code rfl
          (fun m' hm' => hbefore m' (List.mem_cons_of_mem first hm')) hname hlabel
        exact ⟨regs'', (hrun.tail (hpass (hbefore first List.mem_cons_self))).trans hrest⟩

end Runs

/-! ## Parameters -/

section Params

/-- The instructions that load parameters, the first of which is the `j`-th. -/
def loadCode : VReg → ℕ → List Param → List Ir
  | _, _, [] => []
  | v, j, _ :: params =>
    .loadImm64 (v + 1) (4 + j * 32) :: .getCalldata v (v + 1) :: loadCode (v + 2) (j + 1) params

/-- The scope with the parameters. -/
def bindParams : VReg → List Param → Scope → Scope
  | _, [], scope => scope
  | v, p :: params, scope => bindParams (v + 2) params (scope.insert p.name v)

theorem loadParams_run (params : List Param) (j : ℕ) (scope : Scope) (s : Lowerer) :
    ∃ s', loadParams (params.zipIdx j) scope s = some (bindParams s.nextVReg params scope, s') ∧
      s'.ir = s.ir ++ loadCode s.nextVReg j params := by
  induction params generalizing j scope s with
  | nil => exact ⟨s, rfl, (List.append_nil _).symm⟩
  | cons p params ih =>
    obtain ⟨s', hrun, hir⟩ := ih (j + 1) (scope.insert p.name s.nextVReg)
      { s with ir := s.ir ++ [.loadImm64 (s.nextVReg + 1) (4 + j * 32)] ++
        [.getCalldata s.nextVReg (s.nextVReg + 1)]
               nextVReg := s.nextVReg + 2 }
    refine ⟨s', hrun, hir.trans ?_⟩
    simp only [loadCode, List.append_assoc, List.cons_append, List.nil_append]

theorem execAll_loadCode (cd : Bytes) (params : List Param) (v : VReg) (j : ℕ) (regs : Regs) :
    ∃ regs', execAll cd (loadCode v j params) regs = some regs' ∧
      (∀ i < params.length, regs' (v + 2 * i) = calldataWord cd ((4 + (j + i) * 32) % 2 ^ 64)) ∧
      ∀ u < v, regs' u = regs u := by
  induction params generalizing v j regs with
  | nil => exact ⟨regs, rfl, fun i hi => absurd hi (Nat.not_lt_zero i), fun _ _ => rfl⟩
  | cons p params ih =>
    obtain ⟨regs₁, h₁⟩ : ∃ regs₁, regs₁ = update regs (v + 1) (padRight (leBytes 8 (4 + j * 32))) := ⟨_, rfl⟩
    obtain ⟨regs', hrun, hwords, hlow⟩ := ih (v + 2) (j + 1)
      (update regs₁ v (calldataWord cd (lowBytes 8 (regs₁ (v + 1)))))
    refine ⟨regs', ?_, fun i hi => ?_, fun u hu => ?_⟩
    · rw [h₁] at hrun
      exact hrun
    · cases i with
      | zero =>
        have hself := hlow v (Nat.lt_add_of_pos_right (by decide))
        rw [Function.update_self, h₁, Function.update_self, lowBytes_padRight] at hself
        exact hself
      | succ i =>
        have hword := hwords i (Nat.lt_of_succ_lt_succ hi)
        rw [show v + 2 * (i + 1) = v + 2 + 2 * i by ring, show j + (i + 1) = j + 1 + i by ring]
        exact hword
    · have hne : u ≠ v + 1 := Nat.ne_of_lt (Nat.lt_succ_of_lt hu)
      rw [hlow u (Nat.lt_add_right 2 hu), Function.update_of_ne (Nat.ne_of_lt hu), h₁, Function.update_of_ne hne]

theorem bindParams_of_not_mem {name : String} {params : List Param} (h : name ∉ params.map Param.name) (v : VReg)
    (scope : Scope) : (bindParams v params scope)[name]? = scope[name]? := by
  induction params generalizing v scope with
  | nil => rfl
  | cons p params ih =>
    rw [List.map_cons, List.mem_cons, not_or] at h
    rw [bindParams, ih h.2, getElem?_insert_ite, if_neg h.1]

theorem bindParams_getElem? {params : List Param} (h : (params.map Param.name).Nodup) (v : VReg) (scope : Scope)
    {i : ℕ} {p : Param} (hp : params[i]? = some p) : (bindParams v params scope)[p.name]? = some (v + 2 * i) := by
  induction params generalizing v scope i with
  | nil => cases hp
  | cons q params ih =>
    rw [List.map_cons, List.nodup_cons] at h
    cases i with
    | zero =>
      obtain rfl := Option.some.inj hp
      rw [bindParams, bindParams_of_not_mem h.1, getElem?_insert_ite, if_pos rfl]
      rfl
    | succ i =>
      rw [bindParams, ih h.2 _ _ hp, show v + 2 * (i + 1) = v + 2 + 2 * i by ring]

theorem bindParams_some {params : List Param} {v u : VReg} {scope : Scope} {name : String}
    (h : (bindParams v params scope)[name]? = some u) :
    scope[name]? = some u ∨ ∃ k < params.length, u = v + 2 * k := by
  induction params generalizing v scope with
  | nil => exact Or.inl h
  | cons p params ih =>
    rcases ih h with h | ⟨k, hk, rfl⟩
    · rw [getElem?_insert_ite] at h
      split_ifs at h
      · exact Or.inr ⟨0, Nat.succ_pos _, (Option.some.inj h).symm⟩
      · exact Or.inl h
    · exact Or.inr ⟨k + 1, Nat.succ_lt_succ hk, by ring⟩

theorem not_label_of_execAll {cd : Bytes} {regs' : Regs} (h : execAll cd code regs = some regs')
    (l : Label) : .label l ∉ code := by
  induction code generalizing regs with
  | nil => exact List.not_mem_nil
  | cons ir code ih =>
    obtain ⟨regs₁, hir, hcode⟩ := Option.bind_eq_some_iff.mp h
    rw [List.mem_cons, not_or]
    refine ⟨fun heq => ?_, ih hcode⟩
    rw [← heq] at hir
    cases hir

end Params

/-! ## Handlers in the program -/

theorem findLabel_eq_none (h : .label l ∉ code) : findLabel l code = none := by
  induction code with
  | nil => rfl
  | cons ir code ih =>
    rw [List.mem_cons, not_or] at h
    rw [findLabel, ih h.2, if_neg (Ne.symm h.1)]
    rfl

theorem findLabel_append (before : List Ir) (h : .label l ∉ code) :
    findLabel l (before ++ .label l :: code) = some (.label l :: code) := by
  induction before with
  | nil =>
    rw [List.nil_append, findLabel, findLabel_eq_none h, if_pos rfl]
    rfl
  | cons ir before ih =>
    rw [List.cons_append, findLabel, ih]
    rfl

section Program
variable {prim : Primitives} {cell : CellDef} {prog : List Ir}

theorem forM_append {α : Type} {f : α → LowerM Unit} (as bs : List α) {u : Lowerer}
    (h : ((as ++ bs).forM f) s = some ((), u)) :
    ∃ t, (as.forM f) s = some ((), t) ∧ (bs.forM f) t = some ((), u) := by
  induction as generalizing s with
  | nil => exact ⟨s, rfl, h⟩
  | cons a as ih =>
    obtain ⟨⟨⟩, t, ha, hrest⟩ := bind_eq_some.mp h
    obtain ⟨t', has, hbs⟩ := ih hrest
    exact ⟨t', bind_eq_some.mpr ⟨(), t, ha, has⟩, hbs⟩

/-- **A program around the handler of one entry.** -/
theorem lower_split (hlower : lower prim cell = some prog) {handlers before after : List (String × Label)}
    {s₀ : Lowerer} {name : String} (htable : lowerTable cell (.new prim cell) = some (handlers, s₀))
    (hhandlers : handlers = before ++ (name, l) :: after) (hk : Handled l s₀)
    (hbefore : ∀ h ∈ before, h.2 ≠ l) (hafter : ∀ h ∈ after, h.2 ≠ l) :
    ∃ s₁ s₂ code, (before.forM fun h => lowerHandler prim cell h.1 h.2) s₀ = some ((), s₁) ∧ Handled l s₁ ∧
      handlerBody prim cell name { s₁ with ir := s₁.ir ++ [.label l] } = some ((), s₂) ∧
      prog = s₂.ir ++ code ∧ .label l ∉ code := by
  obtain ⟨⟨⟨⟩, s⟩, hrun, rfl⟩ := Option.map_eq_some_iff.mp hlower
  change lowerCell prim cell (.new prim cell) = some ((), s) at hrun
  rw [lowerCell_eq] at hrun
  obtain ⟨handlers', t, ht, hrun⟩ := bind_eq_some.mp hrun
  obtain ⟨rfl, rfl⟩ := Prod.mk.inj (Option.some.inj (htable.symm.trans ht))
  obtain ⟨⟨⟩, s₄, hall, hhelpers⟩ := bind_eq_some.mp hrun
  rw [hhandlers] at hall
  obtain ⟨s₁, hfirst, hrest⟩ := forM_append _ _ hall
  obtain ⟨⟨⟩, s₂, hthis, hlast⟩ := bind_eq_some.mp hrest
  obtain ⟨hs₁, -⟩ := adding_avoids.keeps_forM
    (fun h hh => keeps_lowerHandler prim cell adding_avoids h.1 (hbefore h hh)) _ _ _ hfirst hk
  have hbody : handlerBody prim cell name { s₁ with ir := s₁.ir ++ [.label l] } = some ((), s₂) := hthis
  obtain ⟨hs₂, -⟩ := keeps_handlerBody prim cell adding_avoids name _ _ _ hbody ⟨hs₁.taken, hs₁.helpers⟩
  obtain ⟨hs₄, code, hcode, hnot⟩ := adding_avoids.keeps_forM
    (fun h hh => keeps_lowerHandler prim cell adding_avoids h.1 (hafter h hh)) _ _ _ hlast hs₂
  obtain ⟨-, code', hcode', hnot'⟩ := avoids_helpers prim _ hhelpers hs₄
  refine ⟨s₁, s₂, code ++ code', hfirst, hs₁, hbody, ?_, List.not_mem_append hnot hnot'⟩
  rw [hcode', hcode, List.append_assoc]

/-- **The run to a handler**, which is that of the first entry with the selector of the calldata. -/
theorem runs_handler (hlower : lower prim cell = some prog) {cd : Bytes} (hcd : 4 ≤ cd.length)
    {before after : List Entry} {e₀ : Entry} (hentries : entries cell = before ++ e₀ :: after)
    (hbefore : ∀ e ∈ before, selectorOf e.name ≠ cd.take 4) (hsel : selectorOf e₀.name = cd.take 4) :
    ∃ l hs₁ hs₂ s₀ s₁ s₂ code regs, lowerTable cell (.new prim cell) = some (hs₁ ++ (e₀.name, l) :: hs₂, s₀) ∧
      (∀ name, (name, l) ∈ hs₁ ++ (e₀.name, l) :: hs₂ → name = e₀.name) ∧
      (hs₁.forM fun h => lowerHandler prim cell h.1 h.2) s₀ = some ((), s₁) ∧
      handlerBody prim cell e₀.name { s₁ with ir := s₁.ir ++ [.label l] } = some ((), s₂) ∧
      s₂.ir <+: prog ∧ prog = s₁.ir ++ .label l :: code ∧
      Runs prog cd ⟨prog, fun _ => 0⟩ ⟨.label l :: code, regs⟩ := by
  obtain ⟨r, n, s₀, htable, hir, hnext, hhelpers⟩ := lowerTable_spec prim cell
  have hnames : (entries cell).map Entry.name = before.map Entry.name ++ e₀.name :: after.map Entry.name := by
    rw [hentries, List.map_append, List.map_cons]
  have hzip : ((entries cell).map Entry.name).zipIdx n = (before.map Entry.name).zipIdx n ++
      (e₀.name, n + before.length) :: (after.map Entry.name).zipIdx (n + before.length + 1) := by
    rw [hnames, List.zipIdx_append, List.length_map, List.zipIdx_cons]
  have hlast : ∀ h ∈ (before.map Entry.name).zipIdx n, h.2 ≠ n + before.length := by
    intro h hh
    have hlt := List.snd_lt_add_of_mem_zipIdx hh
    rw [List.length_map] at hlt
    exact Nat.ne_of_lt hlt
  have hnew : ∀ h ∈ (after.map Entry.name).zipIdx (n + before.length + 1), h.2 ≠ n + before.length :=
    fun h hh => (Nat.ne_of_lt (List.le_snd_of_mem_zipIdx hh)).symm
  have hk : Handled (n + before.length) s₀ := by
    refine ⟨?_, fun name h hh => ((hhelpers name h hh).trans_le (Nat.le_add_right _ _)).ne⟩
    rw [hnext, hentries, List.length_append, List.length_cons]
    exact Nat.add_lt_add_left (Nat.lt_add_of_pos_right (Nat.succ_pos _)) n
  rw [hzip] at htable
  obtain ⟨s₁, s₂, code₂, hfirst, hs₁, hbody, hprog, hnot₂⟩ := lower_split hlower htable rfl hk hlast hnew
  obtain ⟨-, code₁, hcode₁, hnot₁⟩ :=
    keeps_handlerBody prim cell adding_avoids e₀.name _ _ _ hbody ⟨hs₁.taken, hs₁.helpers⟩
  have hcode : prog = s₁.ir ++ .label (n + before.length) :: (code₁ ++ code₂) := by
    rw [hprog, hcode₁, List.append_assoc, List.append_assoc]
    rfl
  have hfind := findLabel_append s₁.ir (List.not_mem_append hnot₁ hnot₂)
  rw [← hcode] at hfind
  obtain ⟨tail, htail⟩ : s₀.ir <+: s₁.ir := adding_extends.keeps_forM
    (fun h _ => keeps_lowerHandler prim cell adding_extends h.1 trivial) _ _ _ hfirst
  have hwhole : prog = preludeCode r ++ (tableCode (r + 2) (r + 4) (r + 5) n ((entries cell).map Entry.name) ++
      (.trap 1 :: (tail ++ .label (n + before.length) :: (code₁ ++ code₂)))) := by
    rw [hcode, ← htail, hir]
    simp only [List.append_assoc, List.cons_append, List.nil_append]
  obtain ⟨regs₁, hrun₁, hword⟩ := @runs_prelude prog cd hcd r _ fun _ => 0
  rw [← hwhole] at hrun₁
  have hsel' : r + 4 ≠ r + 2 := fun h => absurd (Nat.add_left_cancel h) (by decide)
  have hcond' : r + 4 ≠ r + 5 := fun h => absurd (Nat.add_left_cancel h) (by decide)
  obtain ⟨-, hmatch⟩ := @runs_table _ prog cd _ _ _ hsel' hcond' hcd ((entries cell).map Entry.name) n _ hword
  obtain ⟨regs₂, hrun₂⟩ := hmatch (before.map Entry.name) e₀.name (after.map Entry.name) _ hnames
    (by
      intro m hm
      obtain ⟨e, he, rfl⟩ := List.mem_map.mp hm
      exact hbefore e he)
    hsel (by rw [List.length_map]; exact hfind)
  refine ⟨_, _, _, s₀, s₁, s₂, _, regs₂, htable, ?_, hfirst, hbody, ⟨code₂, hprog.symm⟩, hcode, hrun₁.trans hrun₂⟩
  intro name hname
  rcases List.mem_append.mp hname with h | h
  · exact absurd rfl (hlast _ h)
  · rcases List.mem_cons.mp h with h | h
    · exact (Prod.mk.inj h).1
    · exact absurd rfl (hnew _ h)

/-- **What is entered** is lowered from what is found under the name of the first entry with the selector, and
all parameters of one name hold one word. -/
theorem Enters.spec {cd : Bytes} {e e₀ : Entry} (h : Enters prim cell prog cd e)
    (hlower : lower prim cell = some prog) (hcd : 4 ≤ cd.length) (hfirst : firstWith cell (cd.take 4) = some e₀) :
    handlerSource cell e₀.name = some (e.params, e.body) ∧
      ∀ (i : ℕ) (p : Param), e.params[i]? = some p → ∃ k < e.params.length, ∀ (j : ℕ) (q : Param),
        e.params[j]? = some q → q.name = p.name →
          calldataWord cd ((4 + k * 32) % 2 ^ 64) = calldataWord cd (4 + 32 * j) := by
  obtain ⟨hsel, before, after, hentries, hbefore⟩ := List.find?_eq_some_iff_append.mp hfirst
  obtain ⟨l, hs₁, hs₂, s₀, s₁, s₂, code, regs, htable, hname, -, -, -, hcode, hrun⟩ :=
    runs_handler hlower hcd hentries (by simpa using hbefore) (by simpa using hsel)
  obtain ⟨l', loads, rest, regs₁, regs', scope, s, hrun', hexec,
    ⟨hs, t₀, hs₁', name, hs₂', t₁, htable', rfl, -, hsource, hload⟩, hprog, hparams⟩ := h
  have hsame := hrun'.unique hrun rfl rfl
  obtain ⟨hlabels, rfl⟩ := Conf.mk.inj hsame
  obtain ⟨hlabel, rfl⟩ := List.cons.inj hlabels
  obtain rfl := Ir.label.inj hlabel
  obtain ⟨hhandlers, rfl⟩ := Prod.mk.inj (Option.some.inj (htable'.symm.trans htable))
  obtain rfl := hname name (hhandlers ▸ List.mem_append_right _ List.mem_cons_self)
  refine ⟨hsource, fun i p hp => ?_⟩
  obtain ⟨s', hload', hir⟩ := loadParams_run e.params 0 ∅ { t₁ with ir := t₁.ir ++ [.label l'] }
  obtain ⟨rfl, rfl⟩ := Prod.mk.inj (Option.some.inj (hload'.symm.trans hload))
  obtain ⟨regs₂, hexec', hwords, -⟩ := execAll_loadCode cd e.params t₁.nextVReg 0 regs₁
  have hloads : loads = loadCode t₁.nextVReg 0 e.params := by
    have hleft : s₁.ir ++ .label l' :: loads = t₁.ir ++ .label l' :: loadCode t₁.nextVReg 0 e.params := by
      have hboth : (s₁.ir ++ .label l' :: loads) ++ rest = s'.ir ++ rest := by
        rw [← hprog, hcode]
        simp only [List.append_assoc, List.cons_append]
      rw [List.append_cancel_right hboth, hir]
      simp only [List.append_assoc, List.cons_append, List.nil_append]
    have hfound := findLabel_append s₁.ir (not_label_of_execAll hexec l')
    rw [hleft, findLabel_append t₁.ir (not_label_of_execAll hexec' l')] at hfound
    exact ((List.cons.inj (Option.some.inj hfound)).2).symm
  rw [hloads, hexec'] at hexec
  obtain rfl := Option.some.inj hexec
  obtain ⟨u, hu, -⟩ := hparams i p hp
  rcases bindParams_some hu with hnone | ⟨k, hk, rfl⟩
  · rw [Std.ExtTreeMap.getElem?_empty] at hnone
    cases hnone
  · refine ⟨k, hk, fun j q hq hqp => ?_⟩
    obtain ⟨w, hw, hword⟩ := hparams j q hq
    rw [hqp, hu] at hw
    obtain rfl := Option.some.inj hw
    rw [← hword, hwords k hk, Nat.zero_add]

/-- **An entry is entered** when it is found under the name of the first entry with its selector. -/
theorem enters_of_source (hlower : lower prim cell = some prog) {cd : Bytes} (hcd : 4 ≤ cd.length) {e e₀ : Entry}
    (hfirst : firstWith cell (cd.take 4) = some e₀)
    (hsource : handlerSource cell e₀.name = some (e.params, e.body))
    (hnames : (e.params.map Param.name).Nodup) (hoffsets : e.params.length ≤ 2 ^ 59) :
    Enters prim cell prog cd e := by
  obtain ⟨hsel, before, after, hentries, hbefore⟩ := List.find?_eq_some_iff_append.mp hfirst
  obtain ⟨l, hs₁, hs₂, s₀, s₁, s₂, code, regs, htable, -, hrunH, hbody, ⟨tail, htail⟩, hcode, hrun⟩ :=
    runs_handler hlower hcd hentries (by simpa using hbefore) (by simpa using hsel)
  rw [handlerBody_eq prim cell hsource] at hbody
  obtain ⟨scope, s, hload, hrest⟩ := bind_eq_some.mp hbody
  obtain ⟨s', hload', hir⟩ := loadParams_run e.params 0 ∅ { s₁ with ir := s₁.ir ++ [.label l] }
  obtain ⟨rfl, rfl⟩ := Prod.mk.inj (Option.some.inj (hload'.symm.trans hload))
  obtain ⟨more, hmore⟩ : s'.ir <+: s₂.ir :=
    adding_extends.keeps_bind (keeps_lowerBody prim adding_extends e.body _)
    (fun _ => adding_extends.keeps_push rfl) _ _ _ hrest
  have hprog : prog = s'.ir ++ (more ++ tail) := by rw [← htail, ← hmore, List.append_assoc]
  have hloads : code = loadCode s₁.nextVReg 0 e.params ++ (more ++ tail) := by
    rw [hprog, hir] at hcode
    have hsame : s₁.ir ++ .label l :: (loadCode s₁.nextVReg 0 e.params ++ (more ++ tail)) =
        s₁.ir ++ .label l :: code := by
      rw [← hcode]
      simp only [List.append_assoc, List.cons_append, List.nil_append]
    exact ((List.cons.inj (List.append_cancel_left hsame)).2).symm
  obtain ⟨regs', hexec, hwords, -⟩ := execAll_loadCode cd e.params s₁.nextVReg 0 regs
  rw [hloads] at hrun
  refine ⟨l, _, _, regs, regs', _, s', hrun, hexec,
    ⟨_, s₀, hs₁, e₀.name, hs₂, s₁, htable, rfl, hrunH, hsource, hload⟩, hprog, fun i p hp => ?_⟩
  have hi : i < e.params.length := (List.getElem?_eq_some_iff.mp hp).1
  refine ⟨_, bindParams_getElem? hnames _ _ hp, ?_⟩
  have hoff : (4 + (0 + i) * 32) % 2 ^ 64 = 4 + 32 * i := by omega
  rw [hwords i hi, hoff]

theorem lower_table (hlower : lower prim cell = some prog) {handlers : List (String × Label)} {s₀ : Lowerer}
    (htable : lowerTable cell (.new prim cell) = some (handlers, s₀)) : s₀.ir <+: prog := by
  obtain ⟨⟨⟨⟩, s⟩, hrun, rfl⟩ := Option.map_eq_some_iff.mp hlower
  change lowerCell prim cell (.new prim cell) = some ((), s) at hrun
  rw [lowerCell_eq] at hrun
  obtain ⟨handlers', t, ht, hrun⟩ := bind_eq_some.mp hrun
  obtain ⟨rfl, rfl⟩ := Prod.mk.inj (Option.some.inj (htable.symm.trans ht))
  refine adding_extends.keeps_bind ?_ (fun _ => ?_) _ _ _ hrun
  · exact adding_extends.keeps_forM fun h _ => keeps_lowerHandler prim cell adding_extends h.1 trivial
  · exact adding_extends.keeps_forM fun f _ _ _ _ h =>
      keeps_lowerHelper prim adding_extends (fun _ _ => trivial) h

/-- **The trap** is reached when no entry has the selector. -/
theorem traps_iff (hlower : lower prim cell = some prog) {cd : Bytes} (hcd : 4 ≤ cd.length) :
    Traps prog cd ↔ ∀ e ∈ entries cell, selectorOf e.name ≠ cd.take 4 := by
  constructor
  · rintro ⟨code, regs, htrap⟩ e he hsel
    cases hfirst : firstWith cell (cd.take 4) with
    | none =>
      have hnone := List.find?_eq_none.mp hfirst e he
      exact hnone (by simpa using hsel)
    | some e₀ =>
      obtain ⟨hsel₀, before, after, hentries, hbefore⟩ := List.find?_eq_some_iff_append.mp hfirst
      obtain ⟨l, _, _, _, _, _, code', regs', -, -, -, -, -, -, hrun⟩ :=
        runs_handler hlower hcd hentries (by simpa using hbefore) (by simpa using hsel₀)
      have hsame := hrun.unique htrap rfl rfl
      cases hsame
  · intro hnone
    obtain ⟨r, n, s₀, htable, hir, -, -⟩ := lowerTable_spec prim cell
    obtain ⟨tail, htail⟩ := lower_table hlower htable
    have hwhole : prog = preludeCode r ++ (tableCode (r + 2) (r + 4) (r + 5) n ((entries cell).map Entry.name) ++
        (.trap 1 :: tail)) := by
      rw [← htail, hir]
      simp only [List.append_assoc, List.cons_append, List.nil_append]
    obtain ⟨regs₁, hrun₁, hword⟩ := @runs_prelude prog cd hcd r _ fun _ => 0
    rw [← hwhole] at hrun₁
    have hsel' : r + 4 ≠ r + 2 := fun h => absurd (Nat.add_left_cancel h) (by decide)
    have hcond' : r + 4 ≠ r + 5 := fun h => absurd (Nat.add_left_cancel h) (by decide)
    obtain ⟨hover, -⟩ := @runs_table _ prog cd _ _ _ hsel' hcond' hcd ((entries cell).map Entry.name) n
      (.trap 1 :: tail) hword
    obtain ⟨regs₂, hrun₂⟩ := hover fun name hname => by
      obtain ⟨e, he, rfl⟩ := List.mem_map.mp hname
      exact hnone e he
    exact ⟨tail, regs₂, hrun₁.trans hrun₂⟩

end Program

/-! ## Exactness -/

theorem padRight_ones {c : ℕ} (hc : c ≤ 32) : padRight (List.replicate c 1) ≠ 0 ↔ 0 < c := by
  cases c with
  | zero => exact ⟨fun h => absurd (by decide +kernel) h, fun h => absurd h (Nat.lt_irrefl 0)⟩
  | succ c =>
    refine ⟨fun _ => Nat.succ_pos c, fun _ h => ?_⟩
    have hbytes := congrArg ofBytes32 h
    rw [ofBytes32_padRight (by rw [List.length_replicate]; exact hc), List.replicate_succ,
      List.cons_append] at hbytes
    exact absurd (List.cons.inj hbytes).1 (by decide +kernel)

theorem calldataWord_ones {sel : Bytes} (hsel : sel.length = 4) {m off : ℕ} (h : 4 ≤ off) :
    calldataWord (sel ++ List.replicate m 1) off ≠ 0 ↔ off < 4 + m ∧ off < 2 ^ 64 - 1 := by
  have hlen : (sel ++ List.replicate m (1 : UInt8)).length = 4 + m := by
    rw [List.length_append, List.length_replicate, hsel]
  unfold calldataWord
  generalize 2 ^ 64 - 1 = top
  rw [hlen]
  by_cases hin : off < 4 + m
  · obtain ⟨stop, hstop⟩ : ∃ stop, stop = min (min (off + 32) top) (4 + m) := ⟨_, rfl⟩
    rw [if_pos hin, ← hstop, slice, List.drop_append, List.drop_of_length_le (by omega), List.nil_append, hsel,
      List.drop_replicate, List.take_replicate, padRight_ones (by omega)]
    omega
  · rw [if_neg hin]
    exact ⟨fun hne => absurd rfl hne, fun hboth => absurd hboth.1 hin⟩

section Theorem
variable {prim : Primitives} {cell : CellDef} {prog : List Ir}

theorem firstWith_isSome {e : Entry} (he : e ∈ entries cell) :
    ∃ e₀, firstWith cell (selectorOf e.name) = some e₀ := by
  refine Option.isSome_iff_exists.mp (List.find?_isSome.mpr ⟨e, he, ?_⟩)
  simp

theorem Exact.source (h : Exact prim cell prog) (hlower : lower prim cell = some prog) {e e₀ : Entry}
    (he : e ∈ entries cell) (hfirst : firstWith cell (selectorOf e.name) = some e₀) (m : ℕ) :
    handlerSource cell e₀.name = some (e.params, e.body) ∧
      ∀ (i : ℕ) (p : Param), e.params[i]? = some p → ∃ k < e.params.length, ∀ (j : ℕ) (q : Param),
        e.params[j]? = some q → q.name = p.name →
          calldataWord (selectorOf e.name ++ List.replicate m 1) ((4 + k * 32) % 2 ^ 64) =
            calldataWord (selectorOf e.name ++ List.replicate m 1) (4 + 32 * j) := by
  have htake : (selectorOf e.name ++ List.replicate m 1).take 4 = selectorOf e.name :=
    List.take_left' (length_selectorOf e.name)
  have hcd : 4 ≤ (selectorOf e.name ++ List.replicate m 1).length := by
    rw [List.length_append, length_selectorOf]
    exact Nat.le_add_right 4 _
  exact (h.enters _ hcd e he htake.symm).spec hlower hcd (by rw [htake]; exact hfirst)

/-- **What exact dispatch needs.** Calldata that is all ones up to the word of the first of two parameters
tells them apart, and so does the word of a parameter whose offset has more than 64 bits. -/
theorem Exact.unambiguous (h : Exact prim cell prog) (hlower : lower prim cell = some prog) :
    Unambiguous cell := by
  have hoffsets : ∀ e ∈ entries cell, e.params.length ≤ 2 ^ 59 := by
    intro e he
    obtain ⟨e₀, hfirst⟩ := firstWith_isSome he
    by_contra hlong
    obtain ⟨p, hp⟩ : ∃ p, e.params[2 ^ 59]? = some p := ⟨_, List.getElem?_eq_getElem (Nat.lt_of_not_le hlong)⟩
    obtain ⟨k, hk, hword⟩ := (h.source hlower he hfirst (2 ^ 64)).2 _ p hp
    have hsame := hword _ p hp rfl
    have hlow : (4 + k * 32) % 2 ^ 64 < 4 + 2 ^ 64 ∧ (4 + k * 32) % 2 ^ 64 < 2 ^ 64 - 1 := by omega
    have hhigh : ¬ (4 + 32 * 2 ^ 59 < 4 + 2 ^ 64 ∧ 4 + 32 * 2 ^ 59 < 2 ^ 64 - 1) := by omega
    refine absurd ?_ hhigh
    refine (calldataWord_ones (length_selectorOf e.name) (by omega)).mp ?_
    rw [← hsame]
    exact (calldataWord_ones (length_selectorOf e.name) (by omega)).mpr hlow
  refine ⟨fun e he e₀ hfirst => (h.source hlower he hfirst 0).1, fun e he => ?_, hoffsets⟩
  obtain ⟨e₀, hfirst⟩ := firstWith_isSome he
  rw [List.nodup_iff_getElem?_ne_getElem?]
  intro i j hij hj hsame
  rw [List.length_map] at hj
  obtain ⟨p, hp⟩ : ∃ p, e.params[i]? = some p := ⟨_, List.getElem?_eq_getElem (hij.trans hj)⟩
  obtain ⟨q, hq⟩ : ∃ q, e.params[j]? = some q := ⟨_, List.getElem?_eq_getElem hj⟩
  rw [List.getElem?_map, List.getElem?_map, hp, hq] at hsame
  obtain ⟨k, hk, hword⟩ := (h.source hlower he hfirst (32 * i + 1)).2 i p hp
  have hle := hoffsets e he
  have hfirstWord :=
    (@calldataWord_ones _ (length_selectorOf e.name) (32 * i + 1) (4 + 32 * i) (by omega)).mpr (by omega)
  rw [← hword i p hp rfl, hword j q hq (Option.some.inj hsame).symm] at hfirstWord
  have hboth := (calldataWord_ones (length_selectorOf e.name) (by omega)).mp hfirstWord
  omega

/-- **Dispatch is exact** just when the cell is unambiguous. -/
theorem dispatch_exact_iff (hlower : lower prim cell = some prog) : Exact prim cell prog ↔ Unambiguous cell := by
  refine ⟨fun h => h.unambiguous hlower, fun h => ?_⟩
  have henters : ∀ cd : Bytes, 4 ≤ cd.length → ∀ e ∈ entries cell, selectorOf e.name = cd.take 4 →
      Enters prim cell prog cd e := by
    intro cd hcd e he hsel
    obtain ⟨e₀, hfirst⟩ := firstWith_isSome he
    have hsource := h.source e he e₀ hfirst
    rw [hsel] at hfirst
    exact enters_of_source hlower hcd hfirst hsource (h.names e he) (h.offsets e he)
  refine ⟨henters, fun cd hcd => traps_iff hlower hcd, fun e he => ⟨selectorOf e.name, ?_, ?_⟩⟩
  · rw [length_selectorOf]
  · refine henters _ (by rw [length_selectorOf]) e he ?_
    rw [List.take_of_length_le (by rw [length_selectorOf])]

/-- Where the selectors differ, an entry has to be what is found under its own name. -/
theorem unambiguous_of_nodup (hselectors : ((entries cell).map fun e => selectorOf e.name).Nodup)
    (hsource : ∀ e ∈ entries cell, handlerSource cell e.name = some (e.params, e.body))
    (hnames : ∀ e ∈ entries cell, (e.params.map Param.name).Nodup)
    (hoffsets : ∀ e ∈ entries cell, e.params.length ≤ 2 ^ 59) : Unambiguous cell := by
  refine ⟨fun e he e₀ hfirst => ?_, hnames, hoffsets⟩
  have hsame := List.find?_some hfirst
  obtain rfl : e₀ = e :=
    List.inj_on_of_nodup_map hselectors (List.mem_of_find?_eq_some hfirst) he (of_decide_eq_true hsame)
  exact hsource e₀ he

end Theorem

/-- `init`, a public function with two parameters and a private one. -/
def pairCell : CellDef where
  name := "Pair"
  structs := []
  errors := []
  storage := []
  init := some ⟨[⟨"start", .u64, false⟩], [.require (.var "start")]⟩
  fns := [⟨"same", true, [⟨"left", .u64, false⟩, ⟨"right", .u64, false⟩], none,
      [.require (.call "eq" [.var "left", .var "right"])]⟩,
    ⟨"eq", false, [⟨"a", .u64, false⟩, ⟨"b", .u64, false⟩], some [.bool],
      [.ret [.bin .eq (.var "a") (.var "b")]]⟩]

theorem unambiguous_pair : Unambiguous pairCell := by
  refine unambiguous_of_nodup (by decide +kernel) ?_ ?_ ?_
  · intro e he
    rcases List.mem_cons.mp he with rfl | he
    · rfl
    · obtain rfl := List.mem_singleton.mp he
      rfl
  · intro e he
    rcases List.mem_cons.mp he with rfl | he
    · decide +kernel
    · obtain rfl := List.mem_singleton.mp he
      decide +kernel
  · intro e he
    rcases List.mem_cons.mp he with rfl | he
    · exact Nat.le_of_ble_eq_true rfl
    · obtain rfl := List.mem_singleton.mp he
      exact Nat.le_of_ble_eq_true rfl

theorem dispatch_exact_pair : check pairCell = .ok () ∧
    ∃ prog, lower ⟨fun _ => 0, fun _ => 0, fun _ _ _ _ => true⟩ pairCell = some prog ∧
      Exact ⟨fun _ => 0, fun _ => 0, fun _ _ _ _ => true⟩ pairCell prog := by
  refine ⟨by decide +kernel, ?_⟩
  obtain ⟨prog, hlower⟩ := Option.isSome_iff_exists.mp
    (show (lower ⟨fun _ => 0, fun _ => 0, fun _ _ _ _ => true⟩ pairCell).isSome = true by decide +kernel)
  exact ⟨prog, hlower, (dispatch_exact_iff hlower).mpr unambiguous_pair⟩

def clashCell : CellDef where
  name := "Clash"
  structs := []
  errors := []
  storage := []
  init := none
  fns := [⟨"pay", true, [], none, [.require (.int 1)]⟩, ⟨"pay", true, [], none, [.require (.int 0)]⟩]

/-- **The second of two functions of one name is never entered.** The type checker accepts the cell. -/
theorem dispatch_inexact : ¬ ∀ (prim : Primitives) (cell : CellDef) (prog : List Ir), check cell = .ok () →
    lower prim cell = some prog → Exact prim cell prog := by
  intro h
  obtain ⟨prog, hlower⟩ := Option.isSome_iff_exists.mp
    (show (lower ⟨fun _ => 0, fun _ => 0, fun _ _ _ _ => true⟩ clashCell).isSome = true by decide +kernel)
  have hexact := h _ clashCell prog (by decide +kernel) hlower
  have hsecond : (⟨"pay", [], [.require (.int 0)]⟩ : Entry) ∈ entries clashCell :=
    List.mem_cons_of_mem _ List.mem_cons_self
  have hfirst : firstWith clashCell (selectorOf "pay") = some ⟨"pay", [], [.require (.int 1)]⟩ :=
    List.find?_cons_of_pos (decide_eq_true rfl)
  have hsource : handlerSource clashCell "pay" = some ([], [.require (.int 0)]) :=
    (hexact.source hlower hsecond hfirst 0).1
  have hfound : handlerSource clashCell "pay" = some ([], [.require (.int 1)]) := rfl
  rw [hfound] at hsource
  simp at hsource

end TruthLinked.Compiler.Dispatch
