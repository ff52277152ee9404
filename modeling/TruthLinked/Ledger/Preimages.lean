import TruthLinked.Core.Bytes
import TruthLinked.Ledger.Phases
import TruthLinked.Lib.Utf8

/-! # What the hashes of requests and manifests bind

`request_id` joins the URL, the method, the body and the format with colons, and `compute_manifest_hash`
writes the bytecode and four lists of slots one after the other, without lengths. A request is the only one
with its preimage iff no colon lies where a field could end in another reading (`Request.Marked`); a manifest
is the only one with its preimage iff it is a bytecode too short to end in a slot (`request_manifest_iff`). -/

namespace TruthLinked.Ledger.Preimages

open Core.Types Core.Bytes Governance.Types Oracle.Tally Ledger.Model Ledger.Phases Lib.Utf8

/-- No other value has the preimage of `x`. -/
def Unique {α : Type} (preimage : α → Bytes) (x : α) : Prop := ∀ y, preimage y = preimage x → y = x

/-! ## Requests -/

/-- The arguments of `request_id`. -/
structure Request where
  url : String
  method : String
  body : Bytes
  format : UrlResponseFormat
  schemaId : Option Bytes32
  deriving DecidableEq

/-- The name of a format. -/
def tagOf : UrlResponseFormat → Bytes
  | .raw => "raw".toUTF8.toList
  | .jsonCanonical => "json".toUTF8.toList
  | .priceUsd => "price_usd".toUTF8.toList

/-- What follows the format. -/
def schemaSuffix : Option Bytes32 → Bytes
  | some id => ":schema:".toUTF8.toList ++ ofBytes32 id
  | none => []

/-- What `request_id` hashes, after its own name. -/
def Request.fields (r : Request) : Bytes :=
  r.url.toUTF8.toList ++ 58 :: (r.method.toUTF8.toList ++ 58 :: (r.body ++ 58 :: tagOf r.format)) ++
    schemaSuffix r.schemaId

/-- What `request_id` hashes. -/
def Request.preimage (r : Request) : Bytes := "oracle:request:".toUTF8.toList ++ r.fields

theorem requestIdOf_eq (env : TallyEnv) (r : Request) :
    requestIdOf env r.url r.method r.body r.format r.schemaId = env.blake3 r.preimage := by
  unfold requestIdOf Request.preimage Request.fields
  have hcolon : ":".toUTF8.toList = ([58] : Bytes) := by decide +kernel
  rw [hcolon]
  cases r.format <;> cases r.schemaId <;> simp [tagOf, schemaSuffix]

/-- No field of the request could end elsewhere: the URL and the method have no colon, the body has none after
a text, the schema does not end in the name of a format, and without a schema the body does not go on as with
one. -/
structure Request.Marked (r : Request) : Prop where
  url : 58 ∉ r.url.toUTF8.toList
  method : 58 ∉ r.method.toUTF8.toList
  body : ∀ pre post, r.body = pre ++ 58 :: post → ¬ Text pre
  schema : ∀ id format, r.schemaId = some id → ¬ 58 :: tagOf format <:+ ofBytes32 id
  bare : r.schemaId = none → ∀ pre format id,
    r.body ++ 58 :: tagOf r.format ≠ pre ++ 58 :: (tagOf format ++ schemaSuffix (some id))

theorem colon_notMem_tagOf (format : UrlResponseFormat) : 58 ∉ tagOf format := by
  cases format <;> decide +kernel

theorem tagOf_inj {f g : UrlResponseFormat} (h : tagOf f = tagOf g) : f = g := by
  revert h
  cases f <;> cases g <;> decide +kernel

theorem length_tagOf (format : UrlResponseFormat) : (tagOf format).length < 31 := by
  cases format <;> decide +kernel

theorem text_toUTF8 (s : String) : Text s.toUTF8.toList := by
  refine ⟨s.toList, ?_⟩
  have hbytes : s.toUTF8.toList = s.toByteArray.data.toList := by
    rw [String.toUTF8_eq_toByteArray, ByteArray.toList, toList_loop]
    rfl
  rw [hbytes, ← String.utf8Encode_toList, List.utf8Encode]
  simp [encode]

theorem exists_string {bs : Bytes} (h : Text bs) : ∃ s : String, s.toUTF8.toList = bs := by
  obtain ⟨cs, rfl⟩ := h
  refine ⟨String.ofList cs, ?_⟩
  have hbytes : (String.ofList cs).toUTF8.toList = (String.ofList cs).toByteArray.data.toList := by
    rw [String.toUTF8_eq_toByteArray, ByteArray.toList, toList_loop]
    rfl
  rw [hbytes, String.toByteArray_ofList, List.utf8Encode]
  simp [encode]

theorem two_fields {u m z u' m' z' : Bytes} (hu : 58 ∉ u) (hm : 58 ∉ m) (hu' : Text u') (hm' : Text m')
    (h : u ++ 58 :: (m ++ 58 :: z) = u' ++ 58 :: (m' ++ 58 :: z')) :
    (u = u' ∧ m = m' ∧ z = z') ∨ ∃ pre post, Text pre ∧ z = pre ++ 58 :: post ∧ z' <:+ post := by
  rcases split_first hu h with ⟨rfl, hrest⟩ | ⟨t, rfl, hrest⟩
  · rcases split_first hm hrest with ⟨rfl, hz⟩ | ⟨t, rfl, hz⟩
    · exact .inl ⟨rfl, rfl, hz⟩
    · exact .inr ⟨t, z', (hm'.split (by decide)).2, hz, List.suffix_refl _⟩
  · have ht : Text t := (hu'.split (by decide)).2
    rcases split_first hm hrest with ⟨rfl, hz⟩ | ⟨t', rfl, hz⟩
    · exact .inr ⟨m', z', hm', hz, List.suffix_refl _⟩
    · refine .inr ⟨t', _, (ht.split (by decide)).2, hz, ?_⟩
      exact (List.suffix_cons 58 z').trans (List.suffix_append _ _)

section Requests
variable {r : Request}

theorem Request.Marked.core (h : r.Marked) {u m z : Bytes} (hu : Text u) (hm : Text m) (hz : 58 ∈ z)
    (heq : r.url.toUTF8.toList ++ 58 :: (r.method.toUTF8.toList ++ 58 :: (r.body ++ 58 :: tagOf r.format)) =
      u ++ 58 :: (m ++ 58 :: z)) :
    r.url.toUTF8.toList = u ∧ r.method.toUTF8.toList = m ∧ r.body ++ 58 :: tagOf r.format = z := by
  rcases two_fields h.url h.method hu hm heq with hsame | ⟨pre, post, hpre, hbody, hpost⟩
  · exact hsame
  · rcases split_last (colon_notMem_tagOf r.format) hbody with ⟨-, rfl⟩ | ⟨t, ht, -⟩
    · exact absurd (hpost.subset hz) (colon_notMem_tagOf r.format)
    · exact absurd hpre (h.body pre t ht)

/-- **Marked requests are read back.** -/
theorem Request.Marked.unique (h : r.Marked) : Unique Request.preimage r := by
  intro y hy
  have hfields : y.fields = r.fields := List.append_cancel_left hy
  obtain ⟨url, method, body, format, schemaId⟩ := y
  have hcolon : 58 ∈ body ++ 58 :: tagOf format := List.mem_append_right _ List.mem_cons_self
  -- with the same schema the rest is read back
  have hsame : schemaId = r.schemaId → (⟨url, method, body, format, schemaId⟩ : Request) = r := by
    rintro rfl
    have hcore := List.append_cancel_right hfields
    obtain ⟨hurl, hmethod, hrest⟩ := h.core (text_toUTF8 url) (text_toUTF8 method) hcolon hcore.symm
    rcases split_last (colon_notMem_tagOf r.format) hrest with ⟨hbody, htag⟩ | ⟨t, -, htag⟩
    · rw [← toUTF8_toList_inj.mp hurl, ← toUTF8_toList_inj.mp hmethod, ← hbody, ← tagOf_inj htag]
    · have hin : 58 ∈ tagOf format := htag ▸ List.mem_append_right t List.mem_cons_self
      exact absurd hin (colon_notMem_tagOf format)
  cases hr : r.schemaId with
  | none =>
    cases schemaId with
    | none => exact hsame hr.symm
    | some id =>
      unfold Request.fields at hfields
      simp only [hr, schemaSuffix, List.append_nil, List.append_assoc, List.cons_append] at hfields
      obtain ⟨-, -, hrest⟩ := h.core (text_toUTF8 url) (text_toUTF8 method)
        (List.mem_append_right _ List.mem_cons_self) hfields.symm
      exact absurd hrest (h.bare hr body format id)
  | some id =>
    have hid : ofBytes32 id <:+ r.fields := by
      unfold Request.fields schemaSuffix
      rw [hr]
      exact (List.suffix_append _ _).trans (List.suffix_append _ _)
    cases schemaId with
    | none =>
      have htag : 58 :: tagOf format <:+ r.fields := by
        rw [← hfields]
        unfold Request.fields schemaSuffix
        rw [List.append_nil]
        refine List.IsSuffix.trans ?_ (List.suffix_append _ _)
        refine List.IsSuffix.trans ?_ (List.suffix_cons _ _)
        refine List.IsSuffix.trans ?_ (List.suffix_append _ _)
        refine List.IsSuffix.trans ?_ (List.suffix_cons _ _)
        exact List.suffix_append _ _
      have hlen : (58 :: tagOf format).length ≤ (ofBytes32 id).length := by
        have := length_tagOf format
        rw [List.length_cons, length_ofBytes32]
        omega
      exact absurd (List.suffix_of_suffix_length_le htag hid hlen) (h.schema id format hr)
    | some id' =>
      have hid' : ofBytes32 id' <:+ r.fields := by
        rw [← hfields]
        unfold Request.fields schemaSuffix
        exact (List.suffix_append _ _).trans (List.suffix_append _ _)
      have hlen : (ofBytes32 id').length = (ofBytes32 id).length := by rw [length_ofBytes32, length_ofBytes32]
      have heq := (List.suffix_of_suffix_length_le hid' hid hlen.le).eq_of_length hlen
      rw [hr, ofBytes32_inj.mp heq] at hsame
      rw [ofBytes32_inj.mp heq]
      exact hsame rfl

theorem length_lt_of_cut {a b : Bytes} {s : String} (h : s.toUTF8.toList = a ++ 58 :: b) {t : String}
    (ht : t.toUTF8.toList = a) : t ≠ s := by
  rintro rfl
  rw [ht] at h
  have hlen := congrArg List.length h
  rw [List.length_append, List.length_cons] at hlen
  omega

/-- **Only marked requests are read back.** -/
theorem Request.Marked.of_unique (h : Unique Request.preimage r) : r.Marked := by
  have hone : ∀ y : Request, y.fields = r.fields → y = r := fun y hy =>
    h y (congrArg ("oracle:request:".toUTF8.toList ++ ·) hy)
  refine ⟨fun hmem => ?_, fun hmem => ?_, fun pre post hbody htext => ?_, fun id format hid hsuffix => ?_,
    fun hnone pre format id heq => ?_⟩
  · -- the URL ends at its colon
    obtain ⟨a, b, hab⟩ := List.append_of_mem hmem
    obtain ⟨ha, hb⟩ := Text.split (b := 58) (by decide) (hab ▸ text_toUTF8 r.url)
    obtain ⟨s, hs⟩ := exists_string ha
    obtain ⟨t, ht⟩ := exists_string hb
    have heq := hone ⟨s, t, r.method.toUTF8.toList ++ 58 :: r.body, r.format, r.schemaId⟩ (by
      unfold Request.fields
      rw [hs, ht, hab]
      simp only [List.append_assoc, List.cons_append])
    exact length_lt_of_cut hab hs (congrArg Request.url heq)
  · obtain ⟨a, b, hab⟩ := List.append_of_mem hmem
    obtain ⟨ha, -⟩ := Text.split (b := 58) (by decide) (hab ▸ text_toUTF8 r.method)
    obtain ⟨s, hs⟩ := exists_string ha
    have heq := hone ⟨r.url, s, b ++ 58 :: r.body, r.format, r.schemaId⟩ (by
      unfold Request.fields
      rw [hs, hab]
      simp only [List.append_assoc, List.cons_append])
    exact length_lt_of_cut hab hs (congrArg Request.method heq)
  · -- the method goes on to the colon of the body
    have hlonger : Text (r.method.toUTF8.toList ++ 58 :: pre) :=
      (text_toUTF8 r.method).append (Text.append (a := [58]) ⟨[':'], by decide⟩ htext)
    obtain ⟨s, hs⟩ := exists_string hlonger
    have heq := hone ⟨r.url, s, post, r.format, r.schemaId⟩ (by
      unfold Request.fields
      rw [hs, hbody]
      simp only [List.append_assoc, List.cons_append])
    exact length_lt_of_cut hs rfl (congrArg Request.method heq).symm
  · obtain ⟨q, hq⟩ := hsuffix
    have heq := hone ⟨r.url, r.method, r.body ++ 58 :: (tagOf r.format ++ ":schema:".toUTF8.toList ++ q),
      format, none⟩ (by
      unfold Request.fields
      simp only [hid, schemaSuffix, ← hq, List.append_assoc, List.cons_append, List.append_nil])
    have hschema := congrArg Request.schemaId heq
    rw [hid] at hschema
    cases hschema
  · have hequal := hone ⟨r.url, r.method, pre, format, some id⟩ (by
      unfold Request.fields
      simp only [hnone, heq, schemaSuffix, List.append_assoc, List.cons_append, List.append_nil])
    have hschema := congrArg Request.schemaId hequal
    rw [hnone] at hschema
    cases hschema

end Requests

/-! ## Manifests -/

/-- The arguments of `compute_manifest_hash`. -/
structure Manifest where
  bytecode : Bytes
  declaredReads : List Bytes32
  declaredWrites : List Bytes32
  commutativeKeys : List Bytes32
  oracleSchemaIds : List Bytes32
  deriving DecidableEq

/-- What `compute_manifest_hash` hashes. -/
def Manifest.preimage (m : Manifest) : Bytes :=
  m.bytecode ++ m.declaredReads.flatMap ofBytes32 ++ m.declaredWrites.flatMap ofBytes32 ++
    m.commutativeKeys.flatMap ofBytes32 ++ m.oracleSchemaIds.flatMap ofBytes32

theorem computeManifestHash_eq (env : Env) (m : Manifest) : computeManifestHash env m.bytecode m.declaredReads
    m.declaredWrites m.commutativeKeys m.oracleSchemaIds = env.blake3 m.preimage := rfl

/-- The manifest has no slots, and its bytecode does not end in one. -/
def Manifest.Short (m : Manifest) : Prop :=
  m.bytecode.length < 32 ∧ m.declaredReads = [] ∧ m.declaredWrites = [] ∧ m.commutativeKeys = [] ∧
    m.oracleSchemaIds = []

theorem length_slots (slots : List Bytes32) : (slots.flatMap ofBytes32).length = 32 * slots.length := by
  induction slots with
  | nil => rfl
  | cons w slots ih =>
    rw [List.flatMap_cons, List.length_append, length_ofBytes32, ih, List.length_cons]
    omega

/-- **When a manifest is read back.** -/
theorem Manifest.unique_iff (m : Manifest) : Unique Manifest.preimage m ↔ m.Short := by
  obtain ⟨bytecode, reads, writes, keys, schemas⟩ := m
  constructor
  · intro h
    -- all of it as bytecode
    have hall := h ⟨Manifest.preimage ⟨bytecode, reads, writes, keys, schemas⟩, [], [], [], []⟩ (by
      simp only [Manifest.preimage, List.flatMap_nil, List.append_nil])
    simp only [Manifest.mk.injEq] at hall
    obtain ⟨-, rfl, rfl, rfl, rfl⟩ := hall
    refine ⟨?_, rfl, rfl, rfl, rfl⟩
    by_contra hlong
    have hdrop : (bytecode.drop (bytecode.length - 32)).length = 32 := by
      rw [List.length_drop]
      dsimp only at hlong
      omega
    -- the last 32 bytes as a slot
    have hslot := h ⟨bytecode.take (bytecode.length - 32),
      [toBytes32 (bytecode.drop (bytecode.length - 32))], [], [], []⟩ (by
      simp only [Manifest.preimage, List.flatMap_nil, List.append_nil, List.flatMap_cons]
      rw [ofBytes32_toBytes32 hdrop, List.take_append_drop])
    simp only [Manifest.mk.injEq] at hslot
    cases hslot.2.1
  · rintro ⟨hshort, rfl, rfl, rfl, rfl⟩ ⟨bytecode', reads', writes', keys', schemas'⟩ hy
    have hlen := congrArg List.length hy
    simp only [Manifest.preimage, List.length_append, length_slots, List.length_nil] at hlen
    dsimp only at hshort
    have hnil : ∀ slots : List Bytes32, slots.length = 0 → slots = [] := fun slots => List.length_eq_zero_iff.mp
    obtain rfl := hnil reads' (by omega)
    obtain rfl := hnil writes' (by omega)
    obtain rfl := hnil keys' (by omega)
    obtain rfl := hnil schemas' (by omega)
    simp only [Manifest.preimage, List.flatMap_nil, List.append_nil] at hy
    rw [hy]

/-- **What the preimages bind**: a request is the only one with its preimage iff it is marked, a manifest iff
it is short; and these preimages are what the two functions hash. -/
theorem request_manifest_iff (r : Request) (m : Manifest) :
    (Unique Request.preimage r ↔ r.Marked) ∧ (Unique Manifest.preimage m ↔ m.Short) ∧
    (∀ env : TallyEnv, requestIdOf env r.url r.method r.body r.format r.schemaId = env.blake3 r.preimage) ∧
    ∀ env : Env, computeManifestHash env m.bytecode m.declaredReads m.declaredWrites m.commutativeKeys
      m.oracleSchemaIds = env.blake3 m.preimage :=
  ⟨⟨Request.Marked.of_unique, Request.Marked.unique⟩, Manifest.unique_iff m, fun env => requestIdOf_eq env r,
    fun env => computeManifestHash_eq env m⟩

/-- A body with the word of a method in it, and the same text in the URL; a slot, and the same bytes as
bytecode. -/
theorem preimages_shared :
    (¬ ∀ r : Request, Unique Request.preimage r) ∧ ¬ ∀ m : Manifest, Unique Manifest.preimage m := by
  constructor
  · intro h
    have heq := h ⟨"https://h/a", "GET", "b:GET:c".toUTF8.toList, .raw, none⟩
      ⟨"https://h/a:GET:b", "GET", "c".toUTF8.toList, .raw, none⟩ (by decide +kernel)
    exact absurd (congrArg Request.url heq) (by decide +kernel)
  · intro h
    have heq := h ⟨[], [0], [], [], []⟩ ⟨[], [], [0], [], []⟩ rfl
    exact absurd (congrArg Manifest.declaredReads heq) (by decide)

end TruthLinked.Ledger.Preimages
