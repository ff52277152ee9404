import TruthLinked.Consensus.AttestationPipeline
import TruthLinked.Lib.Run
import TruthLinked.Lib.Table

/-! # Interleaved calls of the attestation pipeline

`start_collection` and `add_attestation` of `attestation_pipeline.rs` take two locks one after the other,
so calls interleave at the granularity of the lock regions. A call is in flight between its regions: an
attestation that found no batch, or the early attestations that were drained for a batch. Beside the
tables a run keeps the first attestation of each validator that was added since its batch was last
removed. An attestation can pass the start of its batch and is then missing from it
(`attestation_passes_start`); runs in which late attestations still find their batch not begun, and
drained ones reach it first, lose none (`no_attestation_lost`). -/

namespace TruthLinked.Consensus.AttestationRace

open Core.Types Consensus.Types Consensus.AttestationPipeline Lib.Run Lib.Table

local instance transOrd_key : Std.TransOrd AttestationKey := inferInstance

local instance transOrd_early : Std.TransOrd (AttestationKey × Bytes) := inferInstance

/-! ## Lock regions -/

/-- The first region of `start_collection`: the early attestations of the key are taken out. -/
def drainEarly (key : AttestationKey) (p : Pipeline) : List Attestation × Pipeline :=
  let waiting := p.early.toList.filter fun e => decide (e.1.1 = key)
  (waiting.map Prod.snd, { p with early := waiting.foldl (fun m e => m.erase e.1) p.early })

/-- The second region of `start_collection`. -/
def collectBatch (maxPending now : ℕ) (key : AttestationKey) (earlyAtts : List Attestation)
    (p : Pipeline) : Pipeline :=
  match p.pending[key]? with
  | some existing =>
    { p with
      pending := p.pending.insert key
        { existing with cancelled := false, attestations := earlyAtts.foldl push existing.attestations } }
  | none => { p with pending := (evict maxPending p.pending).insert key ⟨earlyAtts, now, false⟩ }

/-- The second region of `add_attestation`, for an attestation that found no batch. -/
def insertEarly (maxEarly : ℕ) (att : Attestation) (p : Pipeline) : Pipeline :=
  let early := p.early.insert (keyFromAttestation att, att.validatorPubkey) att
  { p with early :=
      if maxEarly < early.size then
        match early.minKey? with
        | some k => early.erase k
        | none => early
      else early }

/-! ## Runs -/

/-- The tables, the calls between their regions by number, and the first attestation of each validator
since the batch of its key was last removed. -/
structure Shared where
  pipe : Pipeline
  late : Map ℕ Attestation
  starts : Map ℕ (AttestationKey × List Attestation)
  first : Map (AttestationKey × Bytes) Attestation

/-- No call was made yet. -/
def Shared.new : Shared := ⟨Pipeline.new, ∅, ∅, ∅⟩

/-- A lock region of a call. A call with two regions has a number, by which the second region finds what
the first one left. -/
inductive Region where
  | add (id : ℕ) (att : Attestation)
  | addLate (id : ℕ)
  | drain (id : ℕ) (key : AttestationKey)
  | collect (id now : ℕ)
  | cancelAllExcept (keep : Option Bytes32)
  | removeBatch (key : AttestationKey)

/-- The call that adds `att` is complete. -/
def complete (first : Map (AttestationKey × Bytes) Attestation) (att : Attestation) :
    Map (AttestationKey × Bytes) Attestation :=
  first.insertIfNew (keyFromAttestation att, att.validatorPubkey) att

section Step
variable (maxPending maxEarly : ℕ)

/-- One region. -/
def step (s : Shared) : Region → Shared
  | .add id att =>
    match s.pipe.pending[keyFromAttestation att]? with
    | some batch =>
      { s with
        pipe :=
          { s.pipe with
            pending := s.pipe.pending.insert (keyFromAttestation att)
              { batch with attestations := push batch.attestations att } }
        first := complete s.first att }
    | none => if s.late.contains id then s else { s with late := s.late.insert id att }
  | .addLate id =>
    match s.late[id]? with
    | some att =>
      { s with
        pipe := insertEarly maxEarly att s.pipe
        late := s.late.erase id
        first := complete s.first att }
    | none => s
  | .drain id key =>
    if s.starts.contains id then s
    else
      { s with
        pipe := (drainEarly key s.pipe).2
        starts := s.starts.insert id (key, (drainEarly key s.pipe).1) }
  | .collect id now =>
    match s.starts[id]? with
    | some (key, earlyAtts) =>
      { s with
        pipe := collectBatch maxPending now key earlyAtts s.pipe
        starts := s.starts.erase id }
    | none => s
  | .cancelAllExcept keep => { s with pipe := cancelAllExcept keep s.pipe }
  | .removeBatch key =>
    { s with
      pipe := removeBatch key s.pipe
      first := if s.pipe.pending.contains key then s.first.filter fun e _ => decide (e.1 ≠ key)
        else s.first }

/-- The tables stay within their limits: nothing is evicted. -/
def Within (s : Shared) : Region → Prop
  | .addLate id => ∀ att, s.late[id]? = some att →
      (s.pipe.early.insert (keyFromAttestation att, att.validatorPubkey) att).size ≤ maxEarly
  | .collect id _ => ∀ key earlyAtts, s.starts[id]? = some (key, earlyAtts) →
      s.pipe.pending[key]? = none → s.pipe.pending.size < maxPending
  | _ => True

end Step

/-- **Where no attestation is lost**: an attestation goes to the early buffer while its batch is neither
there nor being started, and does not replace another one of its validator; a new batch is put up while no
other call holds attestations drained for it. -/
def Ordered (s : Shared) : Region → Prop
  | .addLate id => ∀ att, s.late[id]? = some att →
      s.pipe.pending[keyFromAttestation att]? = none ∧
      (∀ (id' : ℕ) atts, s.starts[id']? ≠ some (keyFromAttestation att, atts)) ∧
      ∀ other, s.pipe.early[(keyFromAttestation att, att.validatorPubkey)]? = some other → other = att
  | .collect id _ => ∀ key earlyAtts, s.starts[id]? = some (key, earlyAtts) →
      s.pipe.pending[key]? = none →
      ∀ (id' : ℕ) atts, id' ≠ id → s.starts[id']? = some (key, atts) → atts = []
  | _ => True

/-- The list holds the first attestations for the key, one of each validator. -/
structure Holds (first : Map (AttestationKey × Bytes) Attestation) (key : AttestationKey)
    (atts : List Attestation) : Prop where
  nodup : (atts.map Attestation.validatorPubkey).Nodup
  mem : ∀ (pk : Bytes) (a : Attestation), first[(key, pk)]? = some a ↔ a ∈ atts ∧ a.validatorPubkey = pk

/-! ## The invariant -/

/-- Where the first attestations for a key are: in the batch; in the early buffer; or with one of the
calls that are about to put up the batch. -/
structure Inv (s : Shared) : Prop where
  tidy : ∀ (e : AttestationKey × Bytes) a, s.pipe.early[e]? = some a →
    keyFromAttestation a = e.1 ∧ a.validatorPubkey = e.2
  pending : ∀ (key : AttestationKey) (b : PendingBatch), s.pipe.pending[key]? = some b →
    Holds s.first key b.attestations ∧ (∀ pk : Bytes, s.pipe.early[(key, pk)]? = none) ∧
      ∀ (id : ℕ) atts, s.starts[id]? = some (key, atts) → atts = []
  early : ∀ key : AttestationKey, s.pipe.pending[key]? = none →
    (∀ (id : ℕ) atts, s.starts[id]? ≠ some (key, atts)) →
    ∀ pk : Bytes, s.pipe.early[(key, pk)]? = s.first[(key, pk)]?
  starting : ∀ key : AttestationKey, s.pipe.pending[key]? = none →
    (∃ (id : ℕ) (atts : List Attestation), s.starts[id]? = some (key, atts)) →
    (∀ pk : Bytes, s.pipe.early[(key, pk)]? = none) ∧
      ∃ (id : ℕ) (atts : List Attestation), s.starts[id]? = some (key, atts) ∧ Holds s.first key atts ∧
        ∀ (id' : ℕ) atts', id' ≠ id → s.starts[id']? = some (key, atts') → atts' = []

/-! ## Tables -/

section Tables
variable {first : Map (AttestationKey × Bytes) Attestation} {key : AttestationKey} {att : Attestation}
  {atts : List Attestation}

theorem complete_of_ne {e : AttestationKey × Bytes}
    (hne : e ≠ (keyFromAttestation att, att.validatorPubkey)) : (complete first att)[e]? = first[e]? := by
  rw [complete, getElem?_insertIfNew_ite, if_neg hne]

theorem complete_self : (complete first att)[(keyFromAttestation att, att.validatorPubkey)]? =
    some (first[(keyFromAttestation att, att.validatorPubkey)]?.getD att) := by
  rw [complete, getElem?_insertIfNew_ite, if_pos rfl]

theorem Holds.congr {first' : Map (AttestationKey × Bytes) Attestation} (h : Holds first key atts)
    (hsame : ∀ pk : Bytes, first'[(key, pk)]? = first[(key, pk)]?) : Holds first' key atts :=
  ⟨h.nodup, fun pk a => by rw [hsame, h.mem]⟩

theorem Holds.complete_of_ne (h : Holds first key atts) (hne : key ≠ keyFromAttestation att) :
    Holds (complete first att) key atts :=
  h.congr fun _ => AttestationRace.complete_of_ne fun he => hne (congrArg Prod.fst he)

theorem Holds.push (h : Holds first (keyFromAttestation att) atts) :
    Holds (complete first att) (keyFromAttestation att) (push atts att) := by
  have hother : ∀ pk, pk ≠ att.validatorPubkey → (complete first att)[(keyFromAttestation att, pk)]? =
      first[(keyFromAttestation att, pk)]? :=
    fun pk hpk => AttestationRace.complete_of_ne fun he => hpk (congrArg Prod.snd he)
  unfold AttestationPipeline.push
  split_ifs with hin
  · -- a duplicate: the validator has its first attestation in the batch
    obtain ⟨a, ha, hpk⟩ := List.mem_map.mp hin
    have hfirst := (h.mem _ _).mpr ⟨ha, hpk⟩
    refine h.congr fun pk => ?_
    by_cases he : pk = att.validatorPubkey
    · rw [he, complete_self, hfirst]
      rfl
    · exact hother pk he
  · have hnone : first[(keyFromAttestation att, att.validatorPubkey)]? = none := by
      rw [Option.eq_none_iff_forall_ne_some]
      intro a ha
      obtain ⟨hmem, hpk⟩ := (h.mem _ _).mp ha
      exact hin (List.mem_map.mpr ⟨a, hmem, hpk⟩)
    constructor
    · rw [List.map_append, List.map_singleton, List.nodup_append]
      refine ⟨h.nodup, List.nodup_singleton _, ?_⟩
      rintro pk hpk pk' hpk' rfl
      rw [List.mem_singleton.mp hpk'] at hpk
      exact hin hpk
    · intro pk a
      rw [List.mem_append, List.mem_singleton]
      by_cases he : pk = att.validatorPubkey
      · subst he
        rw [complete_self, hnone, Option.getD_none, Option.some_inj]
        constructor
        · rintro rfl
          exact ⟨Or.inr rfl, rfl⟩
        · rintro ⟨hmem | rfl, hpk⟩
          · exact absurd (List.mem_map.mpr ⟨a, hmem, hpk⟩) hin
          · rfl
      · rw [hother pk he, h.mem]
        constructor
        · exact fun ⟨hmem, hpk⟩ => ⟨Or.inl hmem, hpk⟩
        · rintro ⟨hmem | rfl, hpk⟩
          · exact ⟨hmem, hpk⟩
          · exact absurd hpk.symm he

end Tables

section Drain
variable {p : Pipeline} {key : AttestationKey}

theorem mem_drainEarly {a : Attestation} :
    a ∈ (drainEarly key p).1 ↔ ∃ pk : Bytes, p.early[(key, pk)]? = some a := by
  unfold drainEarly
  simp only [List.mem_map, List.mem_filter, decide_eq_true_eq]
  constructor
  · rintro ⟨⟨⟨k, pk⟩, a'⟩, ⟨hin, rfl⟩, rfl⟩
    exact ⟨pk, Std.ExtTreeMap.mem_toList_iff_getElem?_eq_some.mp hin⟩
  · rintro ⟨pk, hget⟩
    exact ⟨((key, pk), a), ⟨Std.ExtTreeMap.mem_toList_iff_getElem?_eq_some.mpr hget, rfl⟩, rfl⟩

theorem getElem?_foldl_erase (l : List ((AttestationKey × Bytes) × Attestation))
    (m : Map (AttestationKey × Bytes) Attestation) (e : AttestationKey × Bytes) :
    (l.foldl (fun m x => m.erase x.1) m)[e]? = if e ∈ l.map Prod.fst then none else m[e]? := by
  induction l generalizing m with
  | nil => simp
  | cons x l ih =>
    rw [List.foldl_cons, ih, getElem?_erase_ite]
    simp only [List.map_cons, List.mem_cons]
    by_cases hx : e = x.1
    · rw [if_pos hx, if_pos (Or.inl hx), ite_self]
    · simp only [hx, false_or, if_false]

theorem early_drainEarly (e : AttestationKey × Bytes) :
    (drainEarly key p).2.early[e]? = if e.1 = key then none else p.early[e]? := by
  unfold drainEarly
  dsimp only
  rw [getElem?_foldl_erase]
  by_cases he : e.1 = key
  · rw [if_pos he]
    split_ifs with hin
    · rfl
    · rw [Option.eq_none_iff_forall_ne_some]
      intro a ha
      refine hin (List.mem_map.mpr ⟨(e, a), List.mem_filter.mpr ⟨?_, decide_eq_true he⟩, rfl⟩)
      exact Std.ExtTreeMap.mem_toList_iff_getElem?_eq_some.mpr ha
  · rw [if_neg he, if_neg]
    intro hin
    obtain ⟨x, hx, rfl⟩ := List.mem_map.mp hin
    exact he (of_decide_eq_true (List.mem_filter.mp hx).2)

theorem drainEarly_eq_nil (h : ∀ pk : Bytes, p.early[(key, pk)]? = none) : (drainEarly key p).1 = [] := by
  rw [List.eq_nil_iff_forall_not_mem]
  intro a ha
  obtain ⟨pk, hpk⟩ := mem_drainEarly.mp ha
  rw [h pk] at hpk
  cases hpk

theorem holds_drainEarly {first : Map (AttestationKey × Bytes) Attestation}
    (htidy : ∀ (e : AttestationKey × Bytes) a, p.early[e]? = some a →
      keyFromAttestation a = e.1 ∧ a.validatorPubkey = e.2)
    (hsame : ∀ pk : Bytes, p.early[(key, pk)]? = first[(key, pk)]?) :
    Holds first key (drainEarly key p).1 := by
  have ht : Tidy ⟨∅, p.early⟩ := ⟨fun k b hb => by simp at hb, htidy⟩
  refine ⟨(ht.waiting key).nodup, fun pk a => ?_⟩
  rw [← hsame, mem_drainEarly]
  constructor
  · exact fun h => ⟨⟨pk, h⟩, (htidy _ _ h).2⟩
  · rintro ⟨⟨pk', h⟩, rfl⟩
    rw [(htidy _ _ h).2]
    exact h

end Drain

/-! ## What the regions keep -/

section Regions
variable {s : Shared}

theorem inv_new : Inv Shared.new where
  tidy e a ha := by simp [Shared.new, Pipeline.new] at ha
  pending key b hb := by simp [Shared.new, Pipeline.new] at hb
  early key _ _ pk := by simp [Shared.new, Pipeline.new]
  starting key _ h := by
    obtain ⟨id, atts, hid⟩ := h
    simp [Shared.new] at hid

theorem Inv.addToBatch (hI : Inv s) {att : Attestation} {batch : PendingBatch}
    (hb : s.pipe.pending[keyFromAttestation att]? = some batch) :
    Inv { s with
      pipe :=
        { s.pipe with
          pending := s.pipe.pending.insert (keyFromAttestation att)
            { batch with attestations := push batch.attestations att } }
      first := complete s.first att } := by
  have hother : ∀ key : AttestationKey, key ≠ keyFromAttestation att →
      ∀ pk : Bytes, (complete s.first att)[(key, pk)]? = s.first[(key, pk)]? :=
    fun key hne pk => complete_of_ne fun he => hne (congrArg Prod.fst he)
  refine ⟨hI.tidy, ?_, ?_, ?_⟩
  · intro key b hk
    dsimp only at hk ⊢
    rw [getElem?_insert_ite] at hk
    split_ifs at hk with he
    · obtain rfl := Option.some.inj hk
      obtain ⟨hholds, hearly, hstarts⟩ := hI.pending _ _ hb
      rw [he]
      exact ⟨hholds.push, hearly, hstarts⟩
    · obtain ⟨hholds, hearly, hstarts⟩ := hI.pending _ _ hk
      exact ⟨hholds.complete_of_ne he, hearly, hstarts⟩
  · intro key hk hno pk
    dsimp only at hk ⊢
    rw [getElem?_insert_ite] at hk
    split_ifs at hk with he
    rw [hother key he]
    exact hI.early key hk hno pk
  · intro key hk hsome
    dsimp only at hk ⊢
    rw [getElem?_insert_ite] at hk
    split_ifs at hk with he
    obtain ⟨hearly, id, atts, hid, hholds, hrest⟩ := hI.starting key hk hsome
    exact ⟨hearly, id, atts, hid, hholds.complete_of_ne he, hrest⟩

/-- A late attestation whose batch is neither there nor being started. -/
theorem Inv.addEarly (hI : Inv s) {id : ℕ} {att : Attestation}
    (hnone : s.pipe.pending[keyFromAttestation att]? = none)
    (hno : ∀ (id' : ℕ) atts, s.starts[id']? ≠ some (keyFromAttestation att, atts))
    (hsame : ∀ other, s.pipe.early[(keyFromAttestation att, att.validatorPubkey)]? = some other →
      other = att) :
    Inv { s with
      pipe := { s.pipe with
        early := s.pipe.early.insert (keyFromAttestation att, att.validatorPubkey) att }
      late := s.late.erase id
      first := complete s.first att } := by
  have hother : ∀ key : AttestationKey, key ≠ keyFromAttestation att → ∀ pk : Bytes,
      (s.pipe.early.insert (keyFromAttestation att, att.validatorPubkey) att)[(key, pk)]? =
        s.pipe.early[(key, pk)]? := by
    intro key hne pk
    rw [getElem?_insert_ite, if_neg fun he => hne (congrArg Prod.fst he)]
  refine ⟨?_, ?_, ?_, ?_⟩
  · intro e a ha
    dsimp only at ha
    rw [getElem?_insert_ite] at ha
    split_ifs at ha with he
    · obtain rfl := Option.some.inj ha
      rw [he]
      exact ⟨rfl, rfl⟩
    · exact hI.tidy e a ha
  · intro key b hk
    have hne : key ≠ keyFromAttestation att := by
      rintro rfl
      rw [show s.pipe.pending[keyFromAttestation att]? = some b from hk] at hnone
      cases hnone
    obtain ⟨hholds, hearly, hstarts⟩ := hI.pending key b hk
    refine ⟨hholds.complete_of_ne hne, fun pk => ?_, hstarts⟩
    dsimp only
    rw [hother key hne]
    exact hearly pk
  · intro key hk hno' pk
    have hbuf := hI.early key hk hno'
    dsimp only
    rw [getElem?_insert_ite]
    split_ifs with he
    · -- the attestation is new, or the one that was there
      rw [he, complete_self]
      have hkey : key = keyFromAttestation att := congrArg Prod.fst he
      subst hkey
      rw [← hbuf]
      cases hold : s.pipe.early[(keyFromAttestation att, att.validatorPubkey)]? with
      | none => rfl
      | some other => rw [hsame other hold, Option.getD_some]
    · rw [complete_of_ne he]
      exact hbuf pk
  · intro key hk hsome
    have hne : key ≠ keyFromAttestation att := by
      rintro rfl
      obtain ⟨id', atts, hid⟩ := hsome
      exact hno id' atts hid
    obtain ⟨hearly, id', atts, hid, hholds, hrest⟩ := hI.starting key hk hsome
    refine ⟨fun pk => ?_, id', atts, hid, hholds.complete_of_ne hne, hrest⟩
    dsimp only
    rw [hother key hne]
    exact hearly pk

theorem Inv.drain (hI : Inv s) {id : ℕ} (hid : s.starts[id]? = none) (key : AttestationKey) :
    Inv { s with
      pipe := (drainEarly key s.pipe).2
      starts := s.starts.insert id (key, (drainEarly key s.pipe).1) } := by
  have hgone : ∀ pk : Bytes, (drainEarly key s.pipe).2.early[(key, pk)]? = none := by
    intro pk
    rw [early_drainEarly, if_pos rfl]
  have hother : ∀ key', key' ≠ key → ∀ pk : Bytes,
      (drainEarly key s.pipe).2.early[(key', pk)]? = s.pipe.early[(key', pk)]? := by
    intro key' hne pk
    rw [early_drainEarly, if_neg hne]
  have hstarts : ∀ (id' : ℕ) key' atts, key' ≠ key →
      ((s.starts.insert id (key, (drainEarly key s.pipe).1))[id']? = some (key', atts) ↔
        s.starts[id']? = some (key', atts)) := by
    intro id' key' atts hne
    rw [getElem?_insert_ite]
    split_ifs with he
    · rw [he, hid]
      constructor
      · intro h
        exact absurd (congrArg Prod.fst (Option.some.inj h)).symm hne
      · exact fun h => by cases h
    · rfl
  refine ⟨?_, ?_, ?_, ?_⟩
  · intro e a ha
    dsimp only at ha
    rw [early_drainEarly] at ha
    split_ifs at ha
    exact hI.tidy e a ha
  · intro key' b hk
    obtain ⟨hholds, hearly, hempty⟩ := hI.pending key' b hk
    by_cases he : key' = key
    · subst he
      refine ⟨hholds, hgone, ?_⟩
      intro id' atts hid'
      dsimp only at hid'
      rw [getElem?_insert_ite] at hid'
      split_ifs at hid' with hsame
      · obtain ⟨-, rfl⟩ := Prod.mk.inj (Option.some.inj hid')
        exact drainEarly_eq_nil hearly
      · exact hempty id' atts hid'
    · refine ⟨hholds, fun pk => ?_, fun id' atts hid' => hempty id' atts ((hstarts _ _ _ he).mp hid')⟩
      dsimp only
      rw [hother key' he]
      exact hearly pk
  · intro key' hk hno pk
    have he : key' ≠ key := by
      rintro rfl
      refine hno id (drainEarly key' s.pipe).1 ?_
      dsimp only
      rw [getElem?_insert_ite, if_pos rfl]
    dsimp only
    rw [hother key' he]
    exact hI.early key' hk (fun id' atts hid' => hno id' atts ((hstarts _ _ _ he).mpr hid')) pk
  · intro key' hk hsome
    by_cases he : key' = key
    · subst he
      refine ⟨hgone, ?_⟩
      by_cases hold : ∃ (id' : ℕ) (atts : List Attestation), s.starts[id']? = some (key', atts)
      · -- another call has drained the buffer before
        obtain ⟨hearly, id', atts, hid', hholds, hrest⟩ := hI.starting key' hk hold
        have hne : id' ≠ id := by
          rintro rfl
          rw [hid] at hid'
          cases hid'
        refine ⟨id', atts, ?_, hholds, ?_⟩
        · dsimp only
          rw [getElem?_insert_ite, if_neg hne]
          exact hid'
        · intro id'' atts'' hne'' hid''
          dsimp only at hid''
          rw [getElem?_insert_ite] at hid''
          split_ifs at hid''
          · obtain ⟨-, rfl⟩ := Prod.mk.inj (Option.some.inj hid'')
            exact drainEarly_eq_nil hearly
          · exact hrest id'' atts'' hne'' hid''
      · push Not at hold
        refine ⟨id, (drainEarly key' s.pipe).1, ?_, ?_, ?_⟩
        · dsimp only
          rw [getElem?_insert_ite, if_pos rfl]
        · exact holds_drainEarly hI.tidy (hI.early key' hk hold)
        · intro id' atts' hne hid'
          dsimp only at hid'
          rw [getElem?_insert_ite, if_neg hne] at hid'
          exact absurd hid' (hold id' atts')
    · obtain ⟨id', atts, hid'⟩ := hsome
      obtain ⟨hearly, id', atts, hid', hholds, hrest⟩ :=
        hI.starting key' hk ⟨id', atts, (hstarts _ _ _ he).mp hid'⟩
      refine ⟨fun pk => ?_, id', atts, (hstarts _ _ _ he).mpr hid', hholds, ?_⟩
      · dsimp only
        rw [hother key' he]
        exact hearly pk
      · exact fun id'' atts'' hne hid'' => hrest id'' atts'' hne ((hstarts _ _ _ he).mp hid'')

theorem Inv.collect (hI : Inv s) {id : ℕ} {key : AttestationKey} {earlyAtts : List Attestation}
    (hid : s.starts[id]? = some (key, earlyAtts)) {b : PendingBatch}
    (hholds : Holds s.first key b.attestations)
    (hearly : ∀ pk : Bytes, s.pipe.early[(key, pk)]? = none)
    (hempty : ∀ (id' : ℕ) atts, id' ≠ id → s.starts[id']? = some (key, atts) → atts = []) :
    Inv { s with
      pipe := { s.pipe with pending := s.pipe.pending.insert key b }
      starts := s.starts.erase id } := by
  have hback : ∀ (id' : ℕ) key' atts, (s.starts.erase id)[id']? = some (key', atts) →
      id' ≠ id ∧ s.starts[id']? = some (key', atts) := by
    intro id' key' atts h
    rw [getElem?_erase_ite] at h
    split_ifs at h with he
    exact ⟨he, h⟩
  have hforth : ∀ (id' : ℕ) key' atts, key' ≠ key → s.starts[id']? = some (key', atts) →
      (s.starts.erase id)[id']? = some (key', atts) := by
    intro id' key' atts hne h
    rw [getElem?_erase_ite, if_neg, h]
    rintro rfl
    rw [hid] at h
    exact hne (congrArg Prod.fst (Option.some.inj h)).symm
  refine ⟨hI.tidy, ?_, ?_, ?_⟩
  · intro key' b' hk
    dsimp only at hk
    rw [getElem?_insert_ite] at hk
    split_ifs at hk with he
    · obtain rfl := Option.some.inj hk
      subst he
      refine ⟨hholds, hearly, fun id' atts hid' => ?_⟩
      obtain ⟨hne, hold⟩ := hback id' _ _ hid'
      exact hempty id' atts hne hold
    · obtain ⟨hh, hea, hem⟩ := hI.pending key' b' hk
      exact ⟨hh, hea, fun id' atts hid' => hem id' atts (hback id' _ _ hid').2⟩
  · intro key' hk hno pk
    dsimp only at hk
    rw [getElem?_insert_ite] at hk
    split_ifs at hk with he
    exact hI.early key' hk (fun id' atts hid' => hno id' atts (hforth id' _ _ he hid')) pk
  · intro key' hk hsome
    dsimp only at hk
    rw [getElem?_insert_ite] at hk
    split_ifs at hk with he
    obtain ⟨id', atts, hid'⟩ := hsome
    obtain ⟨hea, id', atts, hid', hh, hrest⟩ := hI.starting key' hk ⟨id', atts, (hback id' _ _ hid').2⟩
    refine ⟨hea, id', atts, hforth id' _ _ he hid', hh, ?_⟩
    exact fun id'' atts'' hne hid'' => hrest id'' atts'' hne (hback id'' _ _ hid'').2

theorem Inv.cancelAllExcept (hI : Inv s) (keep : Option Bytes32) :
    Inv { s with pipe := cancelAllExcept keep s.pipe } := by
  have hback : ∀ (key : AttestationKey) (b : PendingBatch),
      (AttestationPipeline.cancelAllExcept keep s.pipe).pending[key]? = some b →
      ∃ b' : PendingBatch, s.pipe.pending[key]? = some b' ∧ b'.attestations = b.attestations := by
    intro key b hb
    unfold AttestationPipeline.cancelAllExcept at hb
    rw [Std.ExtTreeMap.getElem?_map, Option.map_eq_some_iff] at hb
    obtain ⟨b', hb', rfl⟩ := hb
    refine ⟨b', hb', ?_⟩
    split_ifs <;> rfl
  have hnone : ∀ key : AttestationKey,
      (AttestationPipeline.cancelAllExcept keep s.pipe).pending[key]? = none →
      s.pipe.pending[key]? = none := by
    intro key hk
    unfold AttestationPipeline.cancelAllExcept at hk
    rwa [Std.ExtTreeMap.getElem?_map, Option.map_eq_none_iff] at hk
  refine ⟨hI.tidy, ?_, fun key hk => hI.early key (hnone key hk),
    fun key hk => hI.starting key (hnone key hk)⟩
  intro key b hb
  obtain ⟨b', hb', heq⟩ := hback key b hb
  rw [← heq]
  exact hI.pending key b' hb'

theorem Inv.removeBatch (hI : Inv s) (key : AttestationKey) :
    Inv { s with
      pipe := removeBatch key s.pipe
      first := if s.pipe.pending.contains key then s.first.filter fun e _ => decide (e.1 ≠ key)
        else s.first } := by
  have hpending : ∀ key' : AttestationKey, (AttestationPipeline.removeBatch key s.pipe).pending[key']? =
      if key' = key then none else s.pipe.pending[key']? := getElem?_erase_ite _ _
  by_cases hin : s.pipe.pending.contains key = true
  · rw [if_pos hin]
    obtain ⟨b, hb⟩ : ∃ b, s.pipe.pending[key]? = some b := by
      rw [← Option.isSome_iff_exists, ← Std.ExtTreeMap.contains_eq_isSome_getElem?]
      exact hin
    obtain ⟨-, hearly, hempty⟩ := hI.pending key b hb
    have hgone : ∀ pk : Bytes, (s.first.filter fun e _ => decide (e.1 ≠ key))[(key, pk)]? = none := by
      intro pk
      rw [Std.ExtTreeMap.getElem?_filter', Option.filter_eq_none_iff]
      exact fun a _ => by simp
    have hkept : ∀ key' : AttestationKey, key' ≠ key → ∀ pk : Bytes,
        (s.first.filter fun e _ => decide (e.1 ≠ key))[(key', pk)]? = s.first[(key', pk)]? := by
      intro key' hne pk
      rw [Std.ExtTreeMap.getElem?_filter']
      cases s.first[(key', pk)]? <;> simp [hne]
    have hnil : Holds (s.first.filter fun e _ => decide (e.1 ≠ key)) key [] :=
      ⟨List.nodup_nil, fun pk a => by rw [hgone]; simp⟩
    refine ⟨hI.tidy, ?_, ?_, ?_⟩
    · intro key' b' hk
      rw [hpending] at hk
      split_ifs at hk with he
      obtain ⟨hh, hea, hem⟩ := hI.pending key' b' hk
      exact ⟨hh.congr (hkept key' he), hea, hem⟩
    · intro key' hk hno pk
      rw [hpending] at hk
      by_cases he : key' = key
      · subst he
        dsimp only
        rw [hgone]
        exact hearly pk
      · rw [if_neg he] at hk
        dsimp only
        rw [hkept key' he]
        exact hI.early key' hk hno pk
    · intro key' hk hsome
      rw [hpending] at hk
      by_cases he : key' = key
      · subst he
        obtain ⟨id, atts, hid⟩ := hsome
        obtain rfl := hempty id atts hid
        exact ⟨hearly, id, [], hid, hnil, fun id' atts' _ hid' => hempty id' atts' hid'⟩
      · rw [if_neg he] at hk
        obtain ⟨hea, id, atts, hid, hh, hrest⟩ := hI.starting key' hk hsome
        exact ⟨hea, id, atts, hid, hh.congr (hkept key' he), hrest⟩
  · -- nothing was there to remove
    have hnone : s.pipe.pending[key]? = none := Std.ExtTreeMap.getElem?_eq_none fun h =>
      hin (Std.ExtTreeMap.contains_iff_mem.mpr h)
    have hsame : (AttestationPipeline.removeBatch key s.pipe).pending = s.pipe.pending := by
      refine Std.ExtTreeMap.ext_getElem? fun key' => ?_
      rw [hpending]
      split_ifs with he
      · rw [he, hnone]
      · rfl
    rw [if_neg hin]
    refine ⟨hI.tidy, ?_, ?_, ?_⟩
    · intro key' b' hk
      exact hI.pending key' b' (hsame ▸ hk)
    · intro key' hk
      exact hI.early key' (hsame ▸ hk)
    · intro key' hk
      exact hI.starting key' (hsame ▸ hk)

end Regions

section Runs
variable {maxPending maxEarly : ℕ}

theorem evict_eq_self {pending : Map AttestationKey PendingBatch} (h : pending.size < maxPending) :
    evict maxPending pending = pending := by
  rw [evict, if_neg (not_le.mpr h)]

theorem Inv.step {s : Shared} (hI : Inv s) (r : Region) (hw : Within maxPending maxEarly s r)
    (ho : Ordered s r) : Inv (step maxPending maxEarly s r) := by
  unfold AttestationRace.step
  cases r with
  | add id att =>
    dsimp only
    cases hb : s.pipe.pending[keyFromAttestation att]? with
    | some batch => exact hI.addToBatch hb
    | none =>
      dsimp only
      split_ifs
      · exact hI
      · exact ⟨hI.tidy, hI.pending, hI.early, hI.starting⟩
  | addLate id =>
    dsimp only
    cases hl : s.late[id]? with
    | none => exact hI
    | some att =>
      obtain ⟨hnone, hno, hsame⟩ := ho att hl
      have hfits : insertEarly maxEarly att s.pipe =
          { s.pipe with
            early := s.pipe.early.insert (keyFromAttestation att, att.validatorPubkey) att } := by
        simp only [insertEarly, if_neg (not_lt.mpr (hw att hl))]
      dsimp only
      rw [hfits]
      exact hI.addEarly hnone hno hsame
  | drain id key =>
    dsimp only
    split_ifs with hin
    · exact hI
    · refine hI.drain (Std.ExtTreeMap.getElem?_eq_none fun h => ?_) key
      exact hin (Std.ExtTreeMap.contains_iff_mem.mpr h)
  | collect id now =>
    dsimp only
    cases hid : s.starts[id]? with
    | none => exact hI
    | some start =>
      obtain ⟨key, earlyAtts⟩ := start
      dsimp only
      unfold collectBatch
      cases hk : s.pipe.pending[key]? with
      | some existing =>
        -- the batch is there, and nothing was drained for it
        obtain ⟨hholds, hearly, hempty⟩ := hI.pending key existing hk
        obtain rfl := hempty id earlyAtts hid
        exact hI.collect hid (b := { existing with cancelled := false, attestations := _ }) hholds hearly
          fun id' atts _ hid' => hempty id' atts hid'
      | none =>
        have hothers := ho key earlyAtts hid hk
        obtain ⟨hearly, id', atts, hid', hholds, hrest⟩ := hI.starting key hk ⟨id, earlyAtts, hid⟩
        have hmine : Holds s.first key earlyAtts := by
          by_cases he : id' = id
          · rw [he, hid] at hid'
            obtain ⟨-, rfl⟩ := Prod.mk.inj (Option.some.inj hid')
            exact hholds
          · rw [hrest id earlyAtts (Ne.symm he) hid, ← hothers id' atts he hid']
            exact hholds
        dsimp only
        rw [evict_eq_self (hw key earlyAtts hid hk)]
        exact hI.collect hid (b := ⟨earlyAtts, now, false⟩) hmine hearly hothers
  | cancelAllExcept keep => exact hI.cancelAllExcept keep
  | removeBatch key => exact hI.removeBatch key

/-- **No attestation is lost in ordered runs.** Whatever the interleaving of the lock regions, while it
stays within the limits and in order, the batch of a key holds the first attestation of every validator
that was added since the key was last removed, each once, and nothing else. -/
theorem no_attestation_lost (regions : List Region)
    (hw : Along (step maxPending maxEarly) (Within maxPending maxEarly) Shared.new regions)
    (ho : Along (step maxPending maxEarly) Ordered Shared.new regions) :
    ∀ (key : AttestationKey) (b : PendingBatch),
      (run (step maxPending maxEarly) Shared.new regions).pipe.pending[key]? = some b →
      Holds (run (step maxPending maxEarly) Shared.new regions).first key b.attestations := by
  have hI : Inv (run (step maxPending maxEarly) Shared.new regions) :=
    (hw.and ho).invariant (fun _ r hs h => hs.step r h.1 h.2) inv_new
  exact fun key b hb => (hI.pending key b hb).1

end Runs

/-! ## An attestation that passes the start of its batch -/

/-- The attestation of validator `pk` to a batch of height `1`. -/
def attestationOf (pk : Bytes) : Attestation :=
  { height := 1, round := 0, batchHash := 5, stateRoot := 6, validatorPubkey := pk, signature := [7] }

/-- One attestation comes before its batch is started, one after. -/
def orderly : List Region :=
  [.add 0 (attestationOf [1]), .addLate 0, .drain 1 (1, 0, 5, 6), .collect 1 0, .add 2 (attestationOf [2])]

/-- The attestation finds no batch, then the batch is started, then the attestation is put by. -/
def passing : List Region :=
  [.add 0 (attestationOf [1]), .drain 1 (1, 0, 5, 6), .collect 1 0, .addLate 0]

theorem orderly_batch_complete :
    ∃ b, (run (step 10 10) Shared.new orderly).pipe.pending[((1, 0, 5, 6) : AttestationKey)]? = some b ∧
      Holds (run (step 10 10) Shared.new orderly).first (1, 0, 5, 6) b.attestations := by
  have hlate : (step 10 10 Shared.new (.add 0 (attestationOf [1]))).late[0]? =
      some (attestationOf [1]) := rfl
  obtain ⟨b, hb⟩ : ∃ b, (run (step 10 10) Shared.new orderly).pipe.pending[((1, 0, 5, 6) : AttestationKey)]? =
      some b := Option.isSome_iff_exists.mp (by decide +kernel)
  refine ⟨b, hb, no_attestation_lost orderly ⟨trivial, ?_, trivial, ?_, trivial, trivial⟩
    ⟨trivial, ?_, trivial, ?_, trivial, trivial⟩ _ _ hb⟩
  · intro att hatt
    rw [hlate] at hatt
    obtain rfl := Option.some.inj hatt
    decide +kernel
  · exact fun _ _ _ _ => by decide +kernel
  · intro att hatt
    rw [hlate] at hatt
    obtain rfl := Option.some.inj hatt
    refine ⟨rfl, fun id atts h => ?_, fun other h => ?_⟩
    · have hempty : (step 10 10 Shared.new (.add 0 (attestationOf [1]))).starts = ∅ := rfl
      rw [hempty] at h
      simp at h
    · have hempty : (step 10 10 Shared.new (.add 0 (attestationOf [1]))).pipe.early = ∅ := rfl
      rw [hempty] at h
      simp at h
  · -- the call that puts up the batch is the only one
    intro key earlyAtts _ _ id atts hne h
    have hone : (step 10 10 (step 10 10 (step 10 10 Shared.new (.add 0 (attestationOf [1])))
        (.addLate 0)) (.drain 1 (1, 0, 5, 6))).starts =
        (∅ : Map ℕ (AttestationKey × List Attestation)).insert 1 ((1, 0, 5, 6), [attestationOf [1]]) := rfl
    rw [hone, getElem?_insert_ite, if_neg hne] at h
    simp at h

/-- **An attestation that passes the start of its batch** is in no batch: it was added, its batch is under
collection, and the batch is empty. -/
theorem attestation_passes_start :
    ¬ ∀ (maxPending maxEarly : ℕ) (regions : List Region),
      Along (step maxPending maxEarly) (Within maxPending maxEarly) Shared.new regions →
      ∀ (key : AttestationKey) (b : PendingBatch),
        (run (step maxPending maxEarly) Shared.new regions).pipe.pending[key]? = some b →
        Holds (run (step maxPending maxEarly) Shared.new regions).first key b.attestations := by
  intro h
  have hwithin : Along (step 10 10) (Within 10 10) Shared.new passing := by
    refine ⟨trivial, trivial, fun _ _ _ _ => by decide +kernel, ?_, trivial⟩
    intro att hatt
    have hlate : (step 10 10 (step 10 10 (step 10 10 Shared.new (.add 0 (attestationOf [1])))
      (.drain 1 (1, 0, 5, 6))) (.collect 1 0)).late[0]? = some (attestationOf [1]) := rfl
    rw [hlate] at hatt
    obtain rfl := Option.some.inj hatt
    decide +kernel
  have hholds := h 10 10 passing hwithin (1, 0, 5, 6) ⟨[], 0, false⟩ rfl
  have hfirst : (run (step 10 10) Shared.new passing).first[
      (((1, 0, 5, 6), [1]) : AttestationKey × Bytes)]? = some (attestationOf [1]) := rfl
  exact absurd ((hholds.mem _ _).mp hfirst).1 List.not_mem_nil

end TruthLinked.Consensus.AttestationRace
