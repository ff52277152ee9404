import TruthLinked.Axiom.HostFree
import TruthLinked.Core.Manifest
import TruthLinked.Lib.Except

/-! # What a verified manifest says about the runs of a cell

The analyzer reads the code from front to back, the VM follows jumps and calls, and instructions other
than the loads write registers too. So a manifest that passes
`verify_manifest_against_bytecode` with every key resolved may still miss keys
(`verified_manifest_misses_key`). It covers every run if the keys are declared that the program uses
whatever its host answers (`manifest_covers_of_resolved`); and they are, wherever the scan is right
about the key registers of the storage instructions (`manifest_covers_of_scanAgrees`). -/

namespace TruthLinked.Core.ManifestSound

open Core.Types Core.Manifest Axiom.Bytecode Axiom.Machine Axiom.HostFree Lib.Except

variable {s s' : Scan} {pool : List Bytes} {code bytecode : Bytes} {pc : ℕ}

/-! ### The scan -/

/-- The positions and locals the scan goes through. -/
inductive Visits (pool : List Bytes) (code : Bytes) : ℕ → Scan → Prop
  | start : Visits pool code 0 .init
  | next {pc pc' : ℕ} {s s' : Scan} (h : Visits pool code pc s)
      (hs : scanStep pool code pc s = some (pc', s')) : Visits pool code pc' s'

/-- The locals only grow. -/
structure Grows (s s' : Scan) : Prop where
  reads : ∀ k ∈ s.reads, k ∈ s'.reads
  writes : ∀ k ∈ s.writes, k ∈ s'.writes

theorem Grows.refl (s : Scan) : Grows s s := ⟨fun _ h => h, fun _ h => h⟩

theorem Grows.trans {s'' : Scan} (h : Grows s s') (h' : Grows s' s'') : Grows s s'' :=
  ⟨fun k hk => h'.reads k (h.reads k hk), fun k hk => h'.writes k (h.writes k hk)⟩

theorem grows_read (s : Scan) (key : UInt8) : Grows s (s.read key) := by
  unfold Scan.read
  cases s.regConsts key with
  | none => exact ⟨fun _ h => h, fun _ h => h⟩
  | some k => exact ⟨fun _ h => List.mem_append_left _ h, fun _ h => h⟩

theorem grows_write (s : Scan) (key : UInt8) : Grows s (s.write key) := by
  unfold Scan.write
  cases s.regConsts key with
  | none => exact ⟨fun _ h => h, fun _ h => h⟩
  | some k => exact ⟨fun _ h => h, fun _ h => List.mem_append_left _ h⟩

/-- A turn of the scan advances inside the code and keeps what it has recorded. -/
theorem scanStep_spec {pc' : ℕ} (h : scanStep pool code pc s = some (pc', s')) :
    pc < pc' ∧ pc < code.length ∧ Grows s s' := by
  unfold scanStep at h
  cases hop : code[pc]? with
  | none => simp [hop] at h
  | some op =>
    have hlt : pc < code.length := (List.getElem?_eq_some_iff.mp hop).1
    have hto {q : ℕ} {t : Scan} (he : some (q, t) = some (pc', s')) (hq : pc < q) (hgrows : Grows s t) :
        pc < pc' ∧ pc < code.length ∧ Grows s s' := by
      simp only [Option.some.injEq, Prod.mk.injEq] at he
      obtain ⟨rfl, rfl⟩ := he
      exact ⟨hq, hlt, hgrows⟩
    simp only [hop] at h
    split_ifs at h
    · exact hto h (by omega) ⟨fun _ h => h, fun _ h => h⟩
    · exact hto h (by omega) ⟨fun _ h => h, fun _ h => h⟩
    · exact hto h (by omega) ⟨fun _ h => h, fun _ h => h⟩
    · exact hto h (by omega) (grows_read s _)
    · exact hto h (by omega) (grows_write s _)
    · exact hto h (by omega) (grows_write s _)
    · cases hn : skipLen op with
      | none => simp [hn] at h
      | some n =>
        simp only [hn] at h
        exact hto h (by omega) (Grows.refl s)

theorem scan_grows (pool : List Bytes) (code : Bytes) : ∀ (fuel pc : ℕ) (s : Scan),
    Grows s (scan pool code fuel pc s)
  | 0, _, s => Grows.refl s
  | fuel + 1, pc, s => by
    unfold scan
    cases h : scanStep pool code pc s with
    | none => exact Grows.refl s
    | some x => exact (scanStep_spec h).2.2.trans (scan_grows pool code fuel x.1 x.2)

/-- The scan, from a position it goes through, ends as the whole scan does. -/
theorem scan_of_visits
    (h : Visits pool code pc s) : ∃ fuel, code.length + 1 ≤ fuel + pc ∧
      scan pool code (code.length + 1) 0 .init = scan pool code fuel pc s := by
  induction h with
  | start => exact ⟨code.length + 1, by omega, rfl⟩
  | @next pc pc' s s' _ hs ih =>
    obtain ⟨fuel, hf, he⟩ := ih
    obtain ⟨hpc, hlt, -⟩ := scanStep_spec hs
    obtain ⟨fuel', rfl⟩ : ∃ f, fuel = f + 1 := ⟨fuel - 1, by omega⟩
    refine ⟨fuel', by omega, ?_⟩
    rw [he]
    simp only [scan, hs]

theorem scan_records {pc' : ℕ}
    (h : Visits pool code pc s) (hs : scanStep pool code pc s = some (pc', s')) :
    Grows s' (scan pool code (code.length + 1) 0 .init) := by
  obtain ⟨fuel, -, he⟩ := scan_of_visits (h.next hs)
  rw [he]
  exact scan_grows pool code fuel pc' s'

/-! ### The two decoders -/

theorem readPool_of_decodePool (raw : Bytes) : ∀ (count pos : ℕ) {r : List Bytes × ℕ},
    decodePool raw count pos = .ok r → readPool raw count pos = .ok r
  | 0, pos, r, h => by
    unfold decodePool at h
    unfold readPool
    injection h with h
    rw [h]
  | count + 1, pos, r, h => by
    unfold decodePool at h
    unfold readPool
    cases hlen : readLe 4 raw pos with
    | none => simp [hlen] at h
    | some entryLen =>
      simp only [hlen] at h ⊢
      split_ifs at h with h₁ h₂
      rw [if_neg h₂]
      cases hrest : decodePool raw count (pos + 4 + entryLen) with
      | error e => rw [hrest] at h; cases h
      | ok r' =>
        rw [hrest] at h
        rw [readPool_of_decodePool raw count _ hrest]
        cases h
        rfl

theorem analyzeBytecode_of_decode {cell : CellBytecode} (h : decode bytecode = .ok cell) :
    let s := scan cell.constPool cell.code (cell.code.length + 1) 0 .init
    analyzeBytecode bytecode =
      .ok ⟨sortDedup s.reads, sortDedup s.writes, s.hasReads, s.hasWrites, s.fullyResolved⟩ := by
  unfold decode at h
  split_ifs at h with h1 h2 h3 h4
  have hne : bytecode.isEmpty = false := by
    cases bytecode with
    | nil => simp at h1
    | cons b bs => rfl
  have hmagic : ¬ bytecode.take 4 ≠ Manifest.magic := h2
  unfold analyzeBytecode
  rw [hne, if_neg Bool.false_ne_true, if_neg (not_or.mpr ⟨h1, hmagic⟩)]
  cases hcount : readLe 2 bytecode 6 with
  | none => simp [hcount] at h
  | some poolCount =>
    simp only [hcount] at h ⊢
    split_ifs at h with h5
    cases hpool : decodePool bytecode poolCount 8 with
    | error e => rw [hpool] at h; cases h
    | ok r =>
      obtain ⟨pool, pos⟩ := r
      rw [hpool] at h
      rw [readPool_of_decodePool bytecode poolCount 8 hpool]
      simp only [ok_bind] at h ⊢
      cases hcode : readLe 4 bytecode pos with
      | none => simp [hcode] at h
      | some codeLen =>
        simp only [hcode] at h ⊢
        split_ifs at h with h6 h7
        injection h with h
        subst h
        rw [if_neg h7]

/-! ### What verification gives -/

theorem mem_sortDedup {l : List Bytes32} {k : Bytes32} : k ∈ sortDedup l ↔ k ∈ l := by
  simp [sortDedup]

/-- The manifest declares the access. -/
def Declared (declaredReads declaredWrites : List Bytes32) : Access → Prop
  | .read k => k ∈ declaredReads
  | .write k => k ∈ declaredWrites

/-- The scan has recorded the access. -/
def Recorded (s : Scan) : Access → Prop
  | .read k => k ∈ s.reads
  | .write k => k ∈ s.writes

theorem Recorded.grows (h : Grows s s') {a : Access} (ha : Recorded s a) :
    Recorded s' a := by
  cases a with
  | read k => exact h.reads k ha
  | write k => exact h.writes k ha

theorem declared_of_verify {declaredReads declaredWrites : List Bytes32}
    {specs : List StorageKeySpec} {analysis : ManifestAnalysis}
    (hv : verifyManifestAgainstBytecode bytecode declaredReads declaredWrites specs = .ok ())
    (ha : analyzeBytecode bytecode = .ok analysis) (hne : bytecode ≠ [])
    (hr : analysis.fullyResolved = true) :
    (∀ k ∈ analysis.staticReadSlots, k ∈ declaredReads) ∧
      ∀ k ∈ analysis.staticWriteSlots, k ∈ declaredWrites := by
  have hemp : bytecode.isEmpty = false := by simpa using hne
  unfold verifyManifestAgainstBytecode at hv
  rw [hemp, if_neg Bool.false_ne_true, ha] at hv
  simp only [ok_bind] at hv
  rw [hr] at hv
  split_ifs at hv with h1 h2 h3
  · cases hf : analysis.staticReadSlots.find? (· ∉ declaredReads) with
    | some slot => rw [hf] at hv; cases hv
    | none =>
      cases hg : analysis.staticWriteSlots.find? (· ∉ declaredWrites) with
      | some slot => rw [hf, hg] at hv; cases hv
      | none =>
        refine ⟨fun k hk => ?_, fun k hk => ?_⟩
        · simpa using List.find?_eq_none.mp hf k hk
        · simpa using List.find?_eq_none.mp hg k hk
  · exact absurd rfl h3

/-- If the manifest passes the check and the analysis is fully resolved, then every key that a run of
the bytecode passes to a storage method of its host is declared. -/
def ManifestCovers (bytecode : Bytes) (declaredReads declaredWrites : List Bytes32) : Prop :=
  ∀ analysis cell,
    verifyManifestAgainstBytecode bytecode declaredReads declaredWrites [] = .ok () →
    analyzeBytecode bytecode = .ok analysis → analysis.fullyResolved = true →
    decode bytecode = .ok cell →
    ∀ (σ : Type) (H : Host σ) (host : σ) (gasLimit depth : ℕ),
      ∀ a ∈ accesses H cell host gasLimit depth, Declared declaredReads declaredWrites a

/-- The scan goes through every storage instruction on the paths of the program without a host, and
records there the key the program has. -/
def ScanAgrees (cell : CellBytecode) : Prop :=
  ∀ c, Reach cell c → ∀ op pc, opAt cell c.pc = some (op, pc) →
    ∀ o, knownAccess c.known op = some o → ∃ a s pc' s', o = some a ∧
      Visits cell.constPool cell.code c.pc s ∧
      scanStep cell.constPool cell.code c.pc s = some (pc', s') ∧ Recorded s' a

/-- **Where the scan is right, the verified manifest declares the keys** the program uses without a
host. -/
theorem resolved_of_scanAgrees {declaredReads declaredWrites : List Bytes32}
    {specs : List StorageKeySpec} {analysis : ManifestAnalysis} {cell : CellBytecode}
    (hv : verifyManifestAgainstBytecode bytecode declaredReads declaredWrites specs = .ok ())
    (ha : analyzeBytecode bytecode = .ok analysis) (hr : analysis.fullyResolved = true)
    (hd : decode bytecode = .ok cell) (hs : ScanAgrees cell) :
    Resolved cell (Declared declaredReads declaredWrites) := by
  have hne : bytecode ≠ [] := by
    rintro rfl
    simp [decode] at hd
  obtain ⟨hreads, hwrites⟩ := declared_of_verify hv ha hne hr
  have hscan := analyzeBytecode_of_decode hd
  rw [ha] at hscan
  injection hscan with hscan
  subst hscan
  intro c hc op pc hop o ho
  obtain ⟨a, s, pc', s', rfl, hvis, hstep, hrec⟩ := hs c hc op pc hop o ho
  refine ⟨a, rfl, ?_⟩
  have hfin := hrec.grows (scan_records hvis hstep)
  cases a with
  | read k => exact hreads k (mem_sortDedup.mpr hfin)
  | write k => exact hwrites k (mem_sortDedup.mpr hfin)

/-- **A manifest covers every run** if, without a host, every storage access of the program has a known
key that is declared. -/
theorem manifest_covers_of_resolved (bytecode : Bytes) (declaredReads declaredWrites : List Bytes32)
    (hres : ∀ cell, decode bytecode = .ok cell →
      Resolved cell (Declared declaredReads declaredWrites)) :
    ManifestCovers bytecode declaredReads declaredWrites := by
  intro analysis cell _ _ _ hcell σ H host gasLimit depth a ha
  exact accesses_ok (hres cell hcell) H host gasLimit depth a ha

/-- **A verified manifest covers every run** of a program that the scan is right about. -/
theorem manifest_covers_of_scanAgrees (bytecode : Bytes) (declaredReads declaredWrites : List Bytes32)
    (hs : ∀ cell, decode bytecode = .ok cell → ScanAgrees cell) :
    ManifestCovers bytecode declaredReads declaredWrites :=
  fun _ cell hverified hanalysis hfully hcell _ H host gasLimit depth a ha =>
    accesses_ok (resolved_of_scanAgrees hverified hanalysis hfully hcell (hs cell hcell))
      H host gasLimit depth a ha

/-! ### A program the analyzer is wrong about -/

def callerHost (caller : Bytes32) : Host Unit where
  storageRead _ s := (.ok 0, s)
  storageWrite _ _ s := (.ok (), s)
  storageDelete _ s := (.ok (), s)
  caller _ := caller
  owner _ := 0
  cellId _ := 0
  height _ := 0
  timestamp _ := 0
  value _ := 0
  calldata _ := []
  setReturnData _ s := (.ok (), s)
  emitLog _ s := (.ok (), s)
  callCell _ _ _ _ s := (.error .unauthorized, s)
  sha256 _ := 0
  accordRequest _ _ _ s := (.error .unauthorized, s)
  accordRead _ s := (.error .unauthorized, s)
  tokenBalance _ _ s := (.error .unauthorized, s)
  tokenTransfer _ _ _ _ s := (.error .unauthorized, s)
  tokenMint _ _ _ s := (.error .unauthorized, s)
  tokenBurn _ _ _ s := (.error .unauthorized, s)
  tokenFreeze _ _ s := (.error .unauthorized, s)
  tokenThaw _ _ s := (.error .unauthorized, s)
  maxReturnData := 262144
  maxLogData := 65536
  maxLogTopics := 8
  maxCallDepth := 500

def keySevenCell (code : Bytes) : CellBytecode := ⟨[List.replicate 31 0 ++ [7]], code⟩

/-- `LOAD_CONST r1 0; GET_CALLER r1; SSTORE r1 r0; HALT`: the key register is overwritten by the
caller. -/
def overwrittenKey : CellBytecode :=
  keySevenCell [0x40, 1, 0, 0, 0x60, 1, 0x51, 1, 0, 0x35]

example : decode (encode overwrittenKey) = .ok overwrittenKey := by decide +kernel

/-- The analyzer takes the key of the write for the constant; the run writes at the caller's id. -/
theorem verified_manifest_misses_key :
    ¬ ∀ (bytecode : Bytes) (declaredReads declaredWrites : List Bytes32),
      ManifestCovers bytecode declaredReads declaredWrites := by
  intro h
  have hcov := h (encode overwrittenKey) [] [7] ⟨[], [7], false, true, true⟩ overwrittenKey
    (by decide +kernel) (by decide +kernel) rfl (by decide +kernel) Unit (callerHost 9) () 1000 0
    (.write 9)
  have hrun : accesses (callerHost 9) overwrittenKey () 1000 0 = [.write 9] := by decide +kernel
  have hmem : (9 : Bytes32) ∈ ([7] : List Bytes32) := hcov (by rw [hrun]; simp)
  exact absurd hmem (by decide)

/-- `LOAD_CONST r1 0; SSTORE r1 r0; HALT`: one write at the constant key. -/
def constantKey : CellBytecode := keySevenCell [0x40, 1, 0, 0, 0x51, 1, 0, 0x35]

def keyLoaded (pc : ℕ) : Cfg := ({ Cfg.init with pc := pc } : Cfg).set 1 (some 7)

theorem reach_constantKey {c : Cfg} (h : Reach constantKey c) :
    c = Cfg.init ∨ c = keyLoaded 4 ∨ c = keyLoaded 7 := by
  induction h with
  | init => exact Or.inl rfl
  | @step c c' _ hc ih =>
    rcases ih with rfl | rfl | rfl
    · have hs : absStep constantKey Cfg.init = [keyLoaded 4] := rfl
      rw [hs, List.mem_singleton] at hc
      exact Or.inr (Or.inl hc)
    · have hs : absStep constantKey (keyLoaded 4) = [keyLoaded 7] := rfl
      rw [hs, List.mem_singleton] at hc
      exact Or.inr (Or.inr hc)
    · have hs : absStep constantKey (keyLoaded 7) = [] := rfl
      rw [hs] at hc
      exact absurd hc List.not_mem_nil

theorem resolved_constantKey : Resolved constantKey (Declared [] [7]) := by
  intro c hc op pc hop o ho
  rcases reach_constantKey hc with rfl | rfl | rfl
  · have h : opAt constantKey Cfg.init.pc = some (.loadConst 1 0, 4) := by decide
    rw [h] at hop
    cases hop
    cases ho
  · have h : opAt constantKey (keyLoaded 4).pc = some (.sstore 1 0, 7) := by decide
    rw [h] at hop
    cases hop
    cases ho
    exact ⟨.write 7, rfl, List.mem_singleton_self 7⟩
  · have h : opAt constantKey (keyLoaded 7).pc = some (.halt, 8) := by decide
    rw [h] at hop
    cases hop
    cases ho

/-- A program whose manifest covers its runs. -/
theorem constantKey_covered : decode (encode constantKey) = .ok constantKey ∧
    ManifestCovers (encode constantKey) [] [7] := by
  have hd : decode (encode constantKey) = .ok constantKey := by decide +kernel
  refine ⟨hd, manifest_covers_of_resolved _ _ _ fun cell hcell => ?_⟩
  rw [hd] at hcell
  cases hcell
  exact resolved_constantKey

end TruthLinked.Core.ManifestSound
