import TruthLinked.Lib.Wp

/-! # Phases of a fallible update

A long update is a sequence of phases, each of which either goes through or is refused. `Spec m F E`
says when phase `m` goes through (`F`) and what it then does (`E`); nothing is said of the state a
refusal leaves. `Keeps v m` says that the part `v` of the state is left alone, by a refusal too
(`RefusalKeeps`: by a refusal), and `Stays P m` that `P` still holds afterwards, by a refusal too. All
compose: in sequence, over a list, and through a view of a larger state. -/

namespace TruthLinked.Lib.Phase

open Lib.Wp

variable {ε S T α : Type}

/-- `m` goes through exactly from the states in `F`, and then acts as `E`. -/
structure Spec (m : ExceptT ε (StateM S) Unit) (F : S → Prop) (E : S → S) : Prop where
  ok : ∀ s, F s → outcome m s = (.ok (), E s)
  err : ∀ s, ¬ F s → ∃ e s', outcome m s = (.error e, s')

section Rules
variable {m n : ExceptT ε (StateM S) Unit} {F G : S → Prop} {E H : S → S}

theorem Spec.iff_ok (h : Spec m F E) (s : S) : (∃ s', outcome m s = (.ok (), s')) ↔ F s := by
  constructor
  · rintro ⟨s', hs⟩
    by_contra hF
    obtain ⟨e, s'', he⟩ := h.err s hF
    rw [hs] at he
    cases he
  · intro hF
    exact ⟨E s, h.ok s hF⟩

theorem Spec.of_ok (h : Spec m F E) {s s' : S} (hs : outcome m s = (.ok (), s')) :
    F s ∧ s' = E s := by
  have hF : F s := (h.iff_ok s).mp ⟨s', hs⟩
  have hE := h.ok s hF
  rw [hs] at hE
  exact ⟨hF, congrArg Prod.snd hE⟩

/-- The same phase under an equivalent condition and an effect that agrees where it holds. -/
theorem Spec.congr {F' : S → Prop} {E' : S → S} (h : Spec m F E) (hF : ∀ s, F' s ↔ F s)
    (hE : ∀ s, F s → E' s = E s) : Spec m F' E' where
  ok s hs := by
    rw [hF] at hs
    rw [hE s hs]
    exact h.ok s hs
  err s hs := by
    rw [hF] at hs
    exact h.err s hs

theorem spec_pure : Spec (pure () : ExceptT ε (StateM S) Unit) (fun _ => True) id where
  ok _ _ := rfl
  err _ h := absurd trivial h

theorem spec_modify (f : S → S) :
    Spec (modify f : ExceptT ε (StateM S) Unit) (fun _ => True) f where
  ok _ _ := rfl
  err _ h := absurd trivial h

theorem Spec.seq (hm : Spec m F E) (hn : Spec n G H) :
    Spec (m >>= fun _ => n) (fun s => F s ∧ G (E s)) (fun s => H (E s)) where
  ok s h := by
    rw [outcome_bind, hm.ok s h.1]
    exact hn.ok (E s) h.2
  err s h := by
    rw [outcome_bind]
    by_cases hF : F s
    · rw [hm.ok s hF]
      exact hn.err (E s) fun hG => h ⟨hF, hG⟩
    · obtain ⟨e, s', he⟩ := hm.err s hF
      exact ⟨e, s', by rw [he]⟩

end Rules

/-! ## Lists -/

/-- `for a in l { f(a)?; }`. -/
def each (f : α → ExceptT ε (StateM S) Unit) : List α → ExceptT ε (StateM S) Unit
  | [] => pure ()
  | a :: l => do f a; each f l

/-- Each step of the list goes through after the ones before it. -/
def FitsAll (F : α → S → Prop) (E : α → S → S) : List α → S → Prop
  | [], _ => True
  | a :: l, s => F a s ∧ FitsAll F E l (E a s)

/-- The steps of the list, one after the other. -/
def runAll (E : α → S → S) (l : List α) (s : S) : S := l.foldl (fun s a => E a s) s

@[simp] theorem runAll_nil (E : α → S → S) (s : S) : runAll E [] s = s := rfl

@[simp] theorem runAll_cons (E : α → S → S) (a : α) (l : List α) (s : S) :
    runAll E (a :: l) s = runAll E l (E a s) := rfl

theorem runAll_append (E : α → S → S) (l l' : List α) (s : S) :
    runAll E (l ++ l') s = runAll E l' (runAll E l s) := List.foldl_append

theorem fitsAll_append (F : α → S → Prop) (E : α → S → S) (l l' : List α) (s : S) :
    FitsAll F E (l ++ l') s ↔ FitsAll F E l s ∧ FitsAll F E l' (runAll E l s) := by
  induction l generalizing s with
  | nil => exact ⟨fun h => ⟨trivial, h⟩, fun h => h.2⟩
  | cons a l ih =>
    simp only [List.cons_append, FitsAll, ih, runAll_cons, and_assoc]

theorem spec_each {f : α → ExceptT ε (StateM S) Unit} {F : α → S → Prop} {E : α → S → S}
    (h : ∀ a, Spec (f a) (F a) (E a)) : ∀ l, Spec (each f l) (FitsAll F E l) (runAll E l)
  | [] => spec_pure
  | a :: l => (h a).seq (spec_each h l)

theorem runAll_keeps {E : α → S → S} {P : S → Prop} {l : List α}
    (h : ∀ a ∈ l, ∀ s, P s → P (E a s)) : ∀ s, P s → P (runAll E l s) := by
  induction l with
  | nil => exact fun s hs => hs
  | cons a l ih =>
    intro s hs
    exact ih (fun b hb => h b (List.mem_cons_of_mem a hb)) _ (h a List.mem_cons_self s hs)

theorem runAll_frame {β : Type} {E : α → S → S} {v : S → β} (h : ∀ a s, v (E a s) = v s)
    (l : List α) (s : S) : v (runAll E l s) = v s :=
  runAll_keeps (P := fun s' => v s' = v s) (fun a _ s' hs' => (h a s').trans hs') s rfl

/-! ## Views -/

/-- A computation on part of the state. -/
def zoom (view : S → T) (put : T → S → S) (m : ExceptT ε (StateM T) α) : ExceptT ε (StateM S) α :=
  ExceptT.mk fun s =>
    let r := outcome m (view s)
    (r.1, put r.2 s)

theorem outcome_zoom (view : S → T) (put : T → S → S) (m : ExceptT ε (StateM T) α) (s : S) :
    outcome (zoom view put m) s = ((outcome m (view s)).1, put (outcome m (view s)).2 s) := rfl

theorem Spec.zoom {m : ExceptT ε (StateM T) Unit} {F : T → Prop} {E : T → T} (h : Spec m F E)
    (view : S → T) (put : T → S → S) :
    Spec (Phase.zoom view put m) (fun s => F (view s)) (fun s => put (E (view s)) s) where
  ok s hs := by rw [outcome_zoom, h.ok _ hs]
  err s hs := by
    obtain ⟨e, t, he⟩ := h.err _ hs
    exact ⟨e, put t s, by rw [outcome_zoom, he]⟩

/-! ## Parts left alone -/

section Keeps
variable {β γ : Type} {v : S → β}

/-- `m` leaves the part `v` of the state alone, whether it goes through or not. -/
def Keeps (v : S → β) (m : ExceptT ε (StateM S) γ) : Prop := ∀ s, v (outcome m s).2 = v s

theorem keeps_pure (a : γ) : Keeps v (pure a : ExceptT ε (StateM S) γ) := fun _ => rfl

theorem keeps_throw (e : ε) : Keeps v (throw e : ExceptT ε (StateM S) γ) := fun _ => rfl

theorem keeps_get : Keeps v (get : ExceptT ε (StateM S) S) := fun _ => rfl

theorem keeps_modify {f : S → S} (h : ∀ s, v (f s) = v s) :
    Keeps v (modify f : ExceptT ε (StateM S) Unit) := h

theorem Keeps.bind {m : ExceptT ε (StateM S) α} {f : α → ExceptT ε (StateM S) γ} (hm : Keeps v m)
    (hf : ∀ a, Keeps v (f a)) : Keeps v (m >>= f) := by
  intro s
  rw [outcome_bind]
  have hs := hm s
  generalize outcome m s = r at hs
  obtain ⟨_ | a, s'⟩ := r
  · exact hs
  · exact (hf a s').trans hs

theorem keeps_each {f : α → ExceptT ε (StateM S) Unit} (h : ∀ a, Keeps v (f a)) :
    ∀ l, Keeps v (each f l)
  | [] => keeps_pure ()
  | a :: l => (h a).bind fun _ => keeps_each h l

/-- A refusal of `m` leaves the part `v` alone. -/
def RefusalKeeps (v : S → β) (m : ExceptT ε (StateM S) γ) : Prop :=
  ∀ s e, (outcome m s).1 = .error e → v (outcome m s).2 = v s

theorem refusalKeeps_modify (f : S → S) :
    RefusalKeeps v (modify f : ExceptT ε (StateM S) Unit) := fun _ _ h => nomatch h

theorem Keeps.refusal_bind {m : ExceptT ε (StateM S) α} {f : α → ExceptT ε (StateM S) γ} (hm : Keeps v m)
    (hf : ∀ a, RefusalKeeps v (f a)) : RefusalKeeps v (m >>= f) := by
  intro s e
  rw [outcome_bind]
  have hs := hm s
  generalize outcome m s = r at hs
  obtain ⟨_ | a, s'⟩ := r
  · exact fun _ => hs
  · exact fun he => (hf a s' e he).trans hs

theorem keeps_zoom (view : S → T) {put : T → S → S} (m : ExceptT ε (StateM T) γ)
    (h : ∀ t s, v (put t s) = v s) : Keeps v (zoom view put m) := fun s => h _ s

end Keeps

/-! ## Invariants -/

section Stays
variable {γ : Type} {P : S → Prop}

/-- `m` keeps `P`, whether it goes through or not. -/
def Stays (P : S → Prop) (m : ExceptT ε (StateM S) γ) : Prop := ∀ s, P s → P (outcome m s).2

theorem stays_throw (e : ε) : Stays P (throw e : ExceptT ε (StateM S) γ) := fun _ hs => hs

theorem stays_get : Stays P (get : ExceptT ε (StateM S) S) := fun _ hs => hs

theorem stays_modify {f : S → S} (h : ∀ s, P s → P (f s)) :
    Stays P (modify f : ExceptT ε (StateM S) Unit) := h

theorem Stays.bind {m : ExceptT ε (StateM S) α} {f : α → ExceptT ε (StateM S) γ} (hm : Stays P m)
    (hf : ∀ a, Stays P (f a)) : Stays P (m >>= f) := by
  intro s hs
  rw [outcome_bind]
  have hs' := hm s hs
  generalize outcome m s = r at hs'
  obtain ⟨_ | a, s'⟩ := r
  · exact hs'
  · exact hf a s' hs'

theorem stays_each_mem {f : α → ExceptT ε (StateM S) Unit} :
    ∀ {l : List α}, (∀ a ∈ l, Stays P (f a)) → Stays P (each f l)
  | [], _ => fun _ hs => hs
  | a :: _, h => (h a List.mem_cons_self).bind fun _ => stays_each_mem fun b hb => h b (List.mem_cons_of_mem a hb)

theorem stays_each {f : α → ExceptT ε (StateM S) Unit} (h : ∀ a, Stays P (f a)) (l : List α) :
    Stays P (each f l) := stays_each_mem fun a _ => h a

theorem stays_of_spec {m : ExceptT ε (StateM S) Unit} {F : S → Prop} {E : S → S} (h : Spec m F E)
    (hrefused : ∀ s, ¬ F s → (outcome m s).2 = s) (hP : ∀ s, F s → P s → P (E s)) : Stays P m := by
  intro s hs
  by_cases hF : F s
  · rw [h.ok s hF]
    exact hP s hF hs
  · rw [hrefused s hF]
    exact hs

theorem Keeps.stays {β : Type} {v : S → β} {m : ExceptT ε (StateM S) γ} (h : Keeps v m)
    (hP : ∀ s s', v s' = v s → P s → P s') : Stays P m := fun s hs => hP s _ (h s) hs

end Stays

end TruthLinked.Lib.Phase
