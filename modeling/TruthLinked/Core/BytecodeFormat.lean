import TruthLinked.Core.Bytes
import TruthLinked.Core.ManifestSound

/-! # The bytecode container

What `CellBytecode::decode` accepts, against what `encode` writes. The decoder accepts the encodings of the
cells within its limits and everything that starts with one (`decode_eq_ok_iff`): no parser of the format asks
for the end of the input. The analyzer reads the same pool and the same code. -/

namespace TruthLinked.Core.BytecodeFormat

open Core.Types Core.Bytes Core.ManifestSound Axiom.Bytecode Lib.Except
open Core.Manifest hiding magic

variable {raw : Bytes} {pos : ℕ} {c : CellBytecode}

/-! ### Length-prefixed sections -/

theorem append_prefix_iff {α : Type*} {a b l : List α} :
    a ++ b <+: l ↔ a <+: l ∧ b <+: l.drop a.length := by
  constructor
  · rintro ⟨t, rfl⟩
    rw [List.append_assoc, List.drop_left]
    exact ⟨List.prefix_append _ _, List.prefix_append _ _⟩
  · rintro ⟨⟨t, rfl⟩, hb⟩
    rw [List.drop_left] at hb
    exact (List.prefix_append_right_inj a).mpr hb

theorem readLe_eq_some_iff {n v : ℕ} (hpos : pos ≤ raw.length) :
    readLe n raw pos = some v ↔ v < 256 ^ n ∧ leBytes n v <+: raw.drop pos := by
  have hslice : slice raw pos (pos + n) = (raw.drop pos).take n := by
    unfold slice
    rw [Nat.add_sub_cancel_left]
  unfold readLe
  rw [hslice]
  by_cases hle : pos + n ≤ raw.length
  · have hlen : ((raw.drop pos).take n).length = n := by
      rw [List.length_take, List.length_drop]
      omega
    rw [if_pos hle, Option.some.injEq]
    constructor
    · rintro rfl
      have hlt := leNat_lt ((raw.drop pos).take n)
      have hback := leBytes_leNat ((raw.drop pos).take n)
      rw [hlen] at hlt hback
      exact ⟨hlt, by rw [hback]; exact List.take_prefix _ _⟩
    · rintro ⟨hv, hpre⟩
      have htake := List.prefix_iff_eq_take.mp hpre
      rw [length_leBytes] at htake
      rw [← htake, leNat_leBytes hv]
  · rw [if_neg hle]
    constructor
    · intro h
      cases h
    · rintro ⟨-, hpre⟩
      have := hpre.length_le
      rw [length_leBytes, List.length_drop] at this
      omega

/-- A section as it is written: its length on four bytes, and its bytes. -/
def lengthPrefixed (e : Bytes) : Bytes := leBytes 4 e.length ++ e

@[simp] theorem length_lengthPrefixed (e : Bytes) : (lengthPrefixed e).length = 4 + e.length := by
  unfold lengthPrefixed
  rw [List.length_append, length_leBytes]

theorem section_iff {e : Bytes} (hpos : pos ≤ raw.length) :
    (∃ len, readLe 4 raw pos = some len ∧ pos + 4 + len ≤ raw.length ∧
      slice raw (pos + 4) (pos + 4 + len) = e) ↔
    e.length < 256 ^ 4 ∧ lengthPrefixed e <+: raw.drop pos := by
  have hslice : ∀ len, slice raw (pos + 4) (pos + 4 + len) = ((raw.drop pos).drop 4).take len := by
    intro len
    unfold slice
    rw [Nat.add_sub_cancel_left, List.drop_drop]
  unfold lengthPrefixed
  rw [append_prefix_iff, length_leBytes]
  constructor
  · rintro ⟨len, hread, hle, rfl⟩
    have hlen : (slice raw (pos + 4) (pos + 4 + len)).length = len := by
      rw [hslice, List.length_take, List.length_drop, List.length_drop]
      omega
    rw [hlen, hslice]
    obtain ⟨hlt, hpre⟩ := (readLe_eq_some_iff hpos).mp hread
    exact ⟨hlt, hpre, List.take_prefix _ _⟩
  · rintro ⟨hlt, hpre, hbody⟩
    refine ⟨e.length, (readLe_eq_some_iff hpos).mpr ⟨hlt, hpre⟩, ?_, ?_⟩
    · have h₁ := hpre.length_le
      have h₂ := hbody.length_le
      rw [length_leBytes, List.length_drop] at h₁
      rw [List.length_drop, List.length_drop] at h₂
      omega
    · rw [hslice]
      exact (List.prefix_iff_eq_take.mp hbody).symm

/-! ### What the decoder accepts -/

/-- The limits of the format. -/
structure Fits (c : CellBytecode) : Prop where
  entries : c.constPool.length ≤ maxConstPoolEntries
  entry : ∀ e ∈ c.constPool, e.length ≤ maxConstEntryBytes
  code : c.code.length ≤ maxCodeBytes

/-- The pool as it is written. -/
def poolBytes (pool : List Bytes) : Bytes := (pool.map lengthPrefixed).flatten

theorem poolBytes_cons (e : Bytes) (pool : List Bytes) :
    poolBytes (e :: pool) = lengthPrefixed e ++ poolBytes pool := by
  unfold poolBytes
  rw [List.map_cons, List.flatten_cons]

theorem decodePool_succ_eq_ok_iff {count stop : ℕ} {pool : List Bytes} (hpos : pos ≤ raw.length) :
    decodePool raw (count + 1) pos = .ok (pool, stop) ↔
      ∃ e rest, pool = e :: rest ∧ e.length ≤ maxConstEntryBytes ∧
        lengthPrefixed e <+: raw.drop pos ∧
        decodePool raw count (pos + 4 + e.length) = .ok (rest, stop) := by
  constructor
  · intro h
    unfold decodePool at h
    cases hlen : readLe 4 raw pos with
    | none => simp [hlen] at h
    | some entryLen =>
      simp only [hlen] at h
      split_ifs at h with h₁ h₂
      obtain ⟨⟨rest, stop'⟩, hrest, h⟩ := bind_eq_ok.mp h
      injection h with h
      obtain ⟨rfl, rfl⟩ := Prod.mk.injEq .. ▸ h
      have hsec := (section_iff hpos).mp ⟨entryLen, hlen, not_lt.mp h₂, rfl⟩
      have hlength : (slice raw (pos + 4) (pos + 4 + entryLen)).length = entryLen := by
        unfold slice
        rw [List.length_take, List.length_drop]
        omega
      refine ⟨_, rest, rfl, ?_, hsec.2, ?_⟩
      · rw [hlength]
        exact not_lt.mp h₁
      · rw [hlength]
        exact hrest
  · rintro ⟨e, rest, rfl, hmax, hpre, hrest⟩
    have hlt : e.length < 256 ^ 4 := lt_of_le_of_lt hmax (by decide)
    obtain ⟨len, hread, hle, rfl⟩ := (section_iff hpos).mpr ⟨hlt, hpre⟩
    have hlength : (slice raw (pos + 4) (pos + 4 + len)).length = len := by
      unfold slice
      rw [List.length_take, List.length_drop]
      omega
    rw [hlength] at hmax hrest
    unfold decodePool
    simp only [hread]
    rw [if_neg (not_lt.mpr hmax), if_neg (not_lt.mpr hle), hrest]
    rfl

theorem decodePool_eq_ok_iff {count stop : ℕ} {pool : List Bytes} (hpos : pos ≤ raw.length) :
    decodePool raw count pos = .ok (pool, stop) ↔
      pool.length = count ∧ (∀ e ∈ pool, e.length ≤ maxConstEntryBytes) ∧
        poolBytes pool <+: raw.drop pos ∧ stop = pos + (poolBytes pool).length := by
  induction count generalizing pos pool with
  | zero =>
    unfold decodePool
    constructor
    · intro h
      injection h with h
      obtain ⟨rfl, rfl⟩ := Prod.mk.injEq .. ▸ h
      exact ⟨rfl, (fun e he => by cases he), List.nil_prefix, rfl⟩
    · rintro ⟨hlen, -, -, rfl⟩
      rw [List.length_eq_zero_iff] at hlen
      subst hlen
      rfl
  | succ count ih =>
    rw [decodePool_succ_eq_ok_iff hpos]
    constructor
    · rintro ⟨e, rest, rfl, hmax, hpre, hrest⟩
      have hlen := hpre.length_le
      rw [length_lengthPrefixed, List.length_drop] at hlen
      obtain ⟨hcount, hall, hpool, rfl⟩ := (ih (by omega)).mp hrest
      refine ⟨by rw [List.length_cons, hcount], List.forall_mem_cons.mpr ⟨hmax, hall⟩, ?_, ?_⟩
      · rw [poolBytes_cons, append_prefix_iff, length_lengthPrefixed, List.drop_drop, ← Nat.add_assoc]
        exact ⟨hpre, hpool⟩
      · rw [poolBytes_cons, List.length_append, length_lengthPrefixed]
        omega
    · rintro ⟨hcount, hall, hpool, rfl⟩
      cases pool with
      | nil => cases hcount
      | cons e rest =>
        rw [List.forall_mem_cons] at hall
        rw [poolBytes_cons, append_prefix_iff, length_lengthPrefixed, List.drop_drop,
          ← Nat.add_assoc] at hpool
        have hlen := hpool.1.length_le
        rw [length_lengthPrefixed, List.length_drop] at hlen
        refine ⟨e, rest, rfl, hall.1, hpool.1, (ih (by omega)).mpr
          ⟨Nat.succ.inj hcount, hall.2, hpool.2, ?_⟩⟩
        rw [poolBytes_cons, List.length_append, length_lengthPrefixed]
        omega

/-- The six bytes before the pool. -/
def header : Bytes := magic ++ [version, 0]

theorem header_prefix_iff (raw : Bytes) :
    header <+: raw ↔ 6 ≤ raw.length ∧ raw.take 4 = magic ∧ raw[4]? = some version ∧ raw[5]? = some 0 := by
  constructor
  · rintro ⟨t, rfl⟩
    refine ⟨?_, rfl, rfl, rfl⟩
    rw [List.length_append]
    exact Nat.le_add_right _ _
  · rintro ⟨hlen, htake, h4, h5⟩
    have hdrop : raw.drop 4 = version :: 0 :: raw.drop 6 := by
      rw [List.drop_eq_getElem_cons (by omega), List.drop_eq_getElem_cons (by omega)]
      rw [List.getElem?_eq_getElem (by omega)] at h4 h5
      rw [Option.some.inj h4, Option.some.inj h5]
    refine ⟨raw.drop 6, ?_⟩
    calc header ++ raw.drop 6 = magic ++ version :: 0 :: raw.drop 6 := rfl
      _ = raw.take 4 ++ raw.drop 4 := by rw [htake, hdrop]
      _ = raw := List.take_append_drop 4 raw

theorem encode_eq (c : CellBytecode) :
    encode c = header ++ (leBytes 2 c.constPool.length ++
      (poolBytes c.constPool ++ lengthPrefixed c.code)) := by
  unfold encode header poolBytes lengthPrefixed
  simp only [List.append_assoc]

/-- The parts a successful decode reads. -/
structure Decoded (raw : Bytes) (c : CellBytecode) (pos : ℕ) : Prop where
  header : header <+: raw
  count : readLe 2 raw 6 = some c.constPool.length
  pool : decodePool raw c.constPool.length 8 = .ok (c.constPool, pos)
  code : ∃ len, readLe 4 raw pos = some len ∧ len ≤ maxCodeBytes ∧ pos + 4 + len ≤ raw.length ∧
    slice raw (pos + 4) (pos + 4 + len) = c.code

theorem decoded_of_decode (h : decode raw = .ok c) :
    ∃ pos, Decoded raw c pos := by
  unfold decode at h
  split_ifs at h with h1 h2 h3 h4
  have hheader : BytecodeFormat.header <+: raw :=
    (header_prefix_iff raw).mpr ⟨not_lt.mp h1, not_not.mp h2, not_not.mp h3, not_not.mp h4⟩
  have hlen : 8 ≤ raw.length ∨ readLe 2 raw 6 = none := by
    unfold readLe
    by_cases hle : 6 + 2 ≤ raw.length
    · exact .inl hle
    · exact .inr (if_neg hle)
  cases hcount : readLe 2 raw 6 with
  | none => simp [hcount] at h
  | some poolCount =>
    rw [hcount] at hlen
    have h8 : 8 ≤ raw.length := hlen.resolve_right (fun h => by cases h)
    simp only [hcount] at h
    split_ifs at h with h5
    obtain ⟨⟨pool, pos⟩, hpool, h⟩ := bind_eq_ok.mp h
    have hlength := ((decodePool_eq_ok_iff h8).mp hpool).1
    dsimp only at h
    cases hcode : readLe 4 raw pos with
    | none => simp [hcode] at h
    | some codeLen =>
      simp only [hcode] at h
      split_ifs at h with h6 h7
      injection h with h
      subst h
      subst hlength
      exact ⟨pos, hheader, hcount, hpool, codeLen, hcode, not_lt.mp h6, not_lt.mp h7, rfl⟩

theorem decode_of_decoded (h : Decoded raw c pos) :
    decode raw = .ok c := by
  obtain ⟨h1, h2, h3, h4⟩ := (header_prefix_iff raw).mp h.header
  obtain ⟨len, hread, hmax, hle, hcode⟩ := h.code
  have hcount : c.constPool.length < 256 ^ 2 :=
    ((readLe_eq_some_iff h1).mp h.count).1
  have h5 : ¬ c.constPool.length > maxConstPoolEntries := by
    unfold maxConstPoolEntries
    omega
  unfold decode
  rw [if_neg (not_lt.mpr h1), if_neg (not_not.mpr h2), if_neg (not_not.mpr h3),
    if_neg (not_not.mpr h4), h.count]
  dsimp only
  rw [if_neg h5, h.pool, ok_bind]
  dsimp only
  rw [hread]
  dsimp only
  rw [if_neg (not_lt.mpr hmax), if_neg (not_lt.mpr hle), hcode]

/-- **The decoder accepts what starts with the encoding of a cell within the limits.** -/
theorem decode_eq_ok_iff :
    decode raw = .ok c ↔ Fits c ∧ encode c <+: raw := by
  have hparts : encode c <+: raw ↔ header <+: raw ∧ leBytes 2 c.constPool.length <+: raw.drop 6 ∧
      poolBytes c.constPool <+: raw.drop 8 ∧
      lengthPrefixed c.code <+: raw.drop (8 + (poolBytes c.constPool).length) := by
    have hheader : header.length = 6 := rfl
    rw [encode_eq, append_prefix_iff, append_prefix_iff, append_prefix_iff, length_leBytes, hheader,
      List.drop_drop, List.drop_drop]
  rw [hparts]
  constructor
  · intro h
    obtain ⟨pos, h⟩ := decoded_of_decode h
    obtain ⟨len, hread, hmax, hle, hcode⟩ := h.code
    have h6 : 6 ≤ raw.length := ((header_prefix_iff raw).mp h.header).1
    obtain ⟨hcount, hcountAt⟩ := (readLe_eq_some_iff h6).mp h.count
    have h8 : 8 ≤ raw.length := by
      have := hcountAt.length_le
      rw [length_leBytes, List.length_drop] at this
      omega
    obtain ⟨-, hentry, hpool, rfl⟩ := (decodePool_eq_ok_iff h8).mp h.pool
    have hsec := (section_iff (by omega)).mp ⟨len, hread, hle, hcode⟩
    refine ⟨⟨?_, hentry, ?_⟩, h.header, hcountAt, hpool, hsec.2⟩
    · unfold maxConstPoolEntries
      omega
    · rw [← hcode]
      unfold slice
      rw [List.length_take, List.length_drop]
      omega
  · rintro ⟨hfits, hheader, hcount, hpool, hcode⟩
    have h6 : 6 ≤ raw.length := ((header_prefix_iff raw).mp hheader).1
    have h8 : 8 ≤ raw.length := by
      have := hcount.length_le
      rw [length_leBytes, List.length_drop] at this
      omega
    have hend : 8 + (poolBytes c.constPool).length ≤ raw.length := by
      have := hpool.length_le
      rw [List.length_drop] at this
      omega
    have hentries : c.constPool.length < 256 ^ 2 := lt_of_le_of_lt hfits.entries (by decide)
    have hsize : c.code.length < 256 ^ 4 := lt_of_le_of_lt hfits.code (by decide)
    obtain ⟨len, hread, hle, hslice⟩ := (section_iff hend).mpr ⟨hsize, hcode⟩
    refine decode_of_decoded ⟨hheader, (readLe_eq_some_iff h6).mpr ⟨hentries, hcount⟩,
      (decodePool_eq_ok_iff h8).mpr ⟨rfl, hfits.entry, hpool, rfl⟩, len, hread, ?_, hle, hslice⟩
    have hlen : c.code.length = len := by
      rw [← hslice]
      unfold slice
      rw [List.length_take, List.length_drop]
      omega
    rw [← hlen]
    exact hfits.code

/-! ### The round trip and the analyzer -/

/-- What the analyzer reads before it scans. -/
def Sees (raw : Bytes) (pool : List Bytes) (code : Bytes) : Prop :=
  ∃ pos len, readLe 2 raw 6 = some pool.length ∧ readPool raw pool.length 8 = .ok (pool, pos) ∧
    readLe 4 raw pos = some len ∧ pos + 4 + len ≤ raw.length ∧
    slice raw (pos + 4) (pos + 4 + len) = code

theorem sees_of_decode (h : decode raw = .ok c) :
    Sees raw c.constPool c.code := by
  obtain ⟨pos, h⟩ := decoded_of_decode h
  obtain ⟨len, hread, -, hle, hcode⟩ := h.code
  exact ⟨pos, len, h.count, readPool_of_decodePool raw _ 8 h.pool, hread, hle, hcode⟩

/-- The analysis of a pool and a code. -/
def analysisOf (c : CellBytecode) : ManifestAnalysis :=
  let s := scan c.constPool c.code (c.code.length + 1) 0 .init
  ⟨sortDedup s.reads, sortDedup s.writes, s.hasReads, s.hasWrites, s.fullyResolved⟩

/-- **The container format.** What is encoded within the limits is decoded. What is decoded starts with the
encoding of the cell, and is that encoding iff it has no byte after the code; the analyzer accepts it and
reads the same pool and the same code. -/
theorem container_format :
    (∀ c, Fits c → decode (encode c) = .ok c) ∧
    ∀ raw c, decode raw = .ok c →
      (∃ rest, raw = encode c ++ rest ∧ (encode c = raw ↔ rest = [])) ∧
      Sees raw c.constPool c.code ∧ analyzeBytecode raw = .ok (analysisOf c) := by
  refine ⟨fun c hfits => decode_eq_ok_iff.mpr ⟨hfits, List.prefix_refl _⟩, fun raw c h => ⟨?_, ?_, ?_⟩⟩
  · obtain ⟨-, rest, rfl⟩ := decode_eq_ok_iff.mp h
    exact ⟨rest, rfl, List.self_eq_append_right⟩
  · exact sees_of_decode h
  · exact analyzeBytecode_of_decode h

/-- An empty cell is read back, and a cell of one constant with a byte after its code. -/
theorem container_format_sample :
    decode (encode ⟨[], []⟩) = .ok ⟨[], []⟩ ∧
    Sees (encode ⟨[[1, 2]], [0x35]⟩ ++ [9]) [[1, 2]] [0x35] :=
  ⟨container_format.1 ⟨[], []⟩ ⟨by decide, by decide, by decide⟩,
    (container_format.2 (encode ⟨[[1, 2]], [0x35]⟩ ++ [9]) ⟨[[1, 2]], [0x35]⟩ (by decide)).2.1⟩

/-- A byte after the code is not noticed. -/
theorem trailing_byte_accepted :
    decode (encode ⟨[], []⟩ ++ [0]) = .ok ⟨[], []⟩ ∧ encode ⟨[], []⟩ ≠ encode ⟨[], []⟩ ++ [0] := by
  decide

end TruthLinked.Core.BytecodeFormat
