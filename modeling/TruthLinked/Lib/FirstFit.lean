import Mathlib.Data.List.Perm.Basic
import Mathlib.Data.List.Range
import Mathlib.Data.Nat.Notation

/-! # First-fit grouping

Items arrive one after another, each with a domain. An item joins the first group whose accumulated
domain it does not clash with, and opens a new group at the end if there is none. Nothing is assumed
of the domains but that clashing with a join is clashing with one of the two joined
(`Distributes`); then every group is free of clashes (`firstFit_clashFree`), and whatever the
domains are, the groups list each item once, in the order of arrival (`firstFit_perm`,
`firstFit_sorted`). -/

namespace TruthLinked.Lib.FirstFit

variable {D : Type*} (clash : D → D → Bool) (join : D → D → D)

/-- Put item `i` with domain `d` into the first group it does not clash with. -/
def place (i : ℕ) (d : D) : List (List ℕ × D) → List (List ℕ × D)
  | [] => [([i], d)]
  | (p, e) :: gs => if clash d e then (p, e) :: place i d gs else (p ++ [i], join e d) :: gs

/-- The groups after the items with the domains `ds`, the first of them numbered `n`. -/
def run (gs : List (List ℕ × D)) (n : ℕ) : List D → List (List ℕ × D)
  | [] => gs
  | d :: ds => run (place clash join n d gs) (n + 1) ds

/-- First-fit grouping of the items `0, …, ds.length - 1`. -/
def firstFit (ds : List D) : List (List ℕ) := (run clash join [] 0 ds).map Prod.fst

/-- Clashing with a join is clashing with one of the two. -/
def Distributes : Prop := ∀ d e f, clash d (join e f) = (clash d e || clash d f)

/-! ### The items are listed once -/

/-- The items listed by the groups. -/
def items (gs : List (List ℕ × D)) : List ℕ := (gs.map Prod.fst).flatten

theorem items_place (i : ℕ) (d : D) : ∀ gs : List (List ℕ × D),
    (items (place clash join i d gs)).Perm (items gs ++ [i])
  | [] => by simp [place, items]
  | (p, e) :: gs => by
    unfold place
    split_ifs with h
    · have ih := items_place i d gs
      simp only [items, List.map_cons, List.flatten_cons, List.append_assoc] at ih ⊢
      exact ih.append_left p
    · simp only [items, List.map_cons, List.flatten_cons, List.append_assoc]
      exact (List.perm_append_comm).append_left p

theorem items_run : ∀ (ds : List D) (gs : List (List ℕ × D)) (n : ℕ),
    (items gs).Perm (List.range n) → (items (run clash join gs n ds)).Perm (List.range (n + ds.length))
  | [], gs, n, h => by simpa [run] using h
  | d :: ds, gs, n, h => by
    have hp : (items (place clash join n d gs)).Perm (List.range (n + 1)) := by
      rw [List.range_succ]
      exact (items_place clash join n d gs).trans (h.append_right [n])
    have ih := items_run ds (place clash join n d gs) (n + 1) hp
    rw [List.length_cons, ← Nat.add_assoc, Nat.add_right_comm]
    exact ih

/-- **Each item stands in exactly one group, once.** -/
theorem firstFit_perm (ds : List D) :
    (firstFit clash join ds).flatten.Perm (List.range ds.length) := by
  have h := items_run clash join ds [] 0 (by simp [items])
  rwa [Nat.zero_add] at h

/-! ### The groups are in the order of arrival -/

/-- Every group lists its items in increasing order, all below `n`. -/
def Sorted (n : ℕ) (gs : List (List ℕ × D)) : Prop :=
  ∀ g ∈ gs, g.1.Pairwise (· < ·) ∧ ∀ i ∈ g.1, i < n

theorem sorted_mono {n m : ℕ} (h : n ≤ m) {gs : List (List ℕ × D)} (hs : Sorted n gs) :
    Sorted m gs :=
  fun g hg => ⟨(hs g hg).1, fun i hi => lt_of_lt_of_le ((hs g hg).2 i hi) h⟩

theorem sorted_place (n : ℕ) (d : D) : ∀ gs : List (List ℕ × D), Sorted n gs →
    Sorted (n + 1) (place clash join n d gs)
  | [], _ => by
    intro g hg
    simp only [place, List.mem_singleton] at hg
    subst hg
    simp
  | (p, e) :: gs, hs => by
    have hhead := hs (p, e) (by simp)
    have htail : Sorted n gs := fun g hg => hs g (by simp [hg])
    unfold place
    split_ifs with h
    · intro g hg
      rcases List.mem_cons.mp hg with rfl | hg
      · exact sorted_mono (Nat.le_succ n) hs _ (by simp)
      · exact sorted_place n d gs htail g hg
    · intro g hg
      rcases List.mem_cons.mp hg with rfl | hg
      · refine ⟨List.pairwise_append.mpr ⟨hhead.1, by simp, ?_⟩, ?_⟩
        · intro a ha b hb
          rw [List.mem_singleton] at hb
          subst hb
          exact hhead.2 a ha
        · intro i hi
          rcases List.mem_append.mp hi with hi | hi
          · exact Nat.lt_succ_of_lt (hhead.2 i hi)
          · rw [List.mem_singleton] at hi
            subst hi
            exact Nat.lt_succ_self i
      · exact sorted_mono (Nat.le_succ n) htail g hg

theorem sorted_run : ∀ (ds : List D) (gs : List (List ℕ × D)) (n : ℕ), Sorted n gs →
    Sorted (n + ds.length) (run clash join gs n ds)
  | [], gs, n, h => by simpa [run] using h
  | d :: ds, gs, n, h => by
    have ih := sorted_run ds _ (n + 1) (sorted_place clash join n d gs h)
    rw [List.length_cons, ← Nat.add_assoc, Nat.add_right_comm]
    exact ih

/-- **Each group is increasing.** -/
theorem firstFit_sorted (ds : List D) {p : List ℕ} (hp : p ∈ firstFit clash join ds) :
    p.Pairwise (· < ·) := by
  obtain ⟨g, hg, rfl⟩ := List.mem_map.mp hp
  exact (sorted_run clash join ds [] 0 (fun g hg => by simp at hg) g hg).1

/-! ### The groups are free of clashes -/

variable {clash join}

/-- What the groups know of the domains `dom` of their items: a group's accumulated domain clashes
with `d` iff one of its items does, and no item clashes with an earlier item of its group. -/
def Tracks (clash : D → D → Bool) (dom : ℕ → D) (gs : List (List ℕ × D)) : Prop :=
  ∀ g ∈ gs, (∀ d, clash d g.2 = true ↔ ∃ i ∈ g.1, clash d (dom i) = true) ∧
    g.1.Pairwise fun i j => clash (dom j) (dom i) = false

theorem tracks_place (hd : Distributes clash join) {dom : ℕ → D} {n : ℕ} :
    ∀ gs : List (List ℕ × D), Tracks clash dom gs → Tracks clash dom (place clash join n (dom n) gs)
  | [], _ => by
    intro g hg
    simp only [place, List.mem_singleton] at hg
    subst hg
    simp
  | (p, e) :: gs, ht => by
    obtain ⟨hacc, hfree⟩ := ht (p, e) (by simp)
    have htail : Tracks clash dom gs := fun g hg => ht g (by simp [hg])
    unfold place
    split_ifs with h
    · intro g hg
      rcases List.mem_cons.mp hg with rfl | hg
      · exact ⟨hacc, hfree⟩
      · exact tracks_place hd gs htail g hg
    · intro g hg
      rcases List.mem_cons.mp hg with rfl | hg
      · refine ⟨fun d => ?_, List.pairwise_append.mpr ⟨hfree, by simp, ?_⟩⟩
        · simp only [hd d e (dom n), Bool.or_eq_true, hacc d, List.mem_append, List.mem_singleton]
          constructor
          · rintro (⟨i, hi, hc⟩ | hc)
            · exact ⟨i, Or.inl hi, hc⟩
            · exact ⟨n, Or.inr rfl, hc⟩
          · rintro ⟨i, hi | rfl, hc⟩
            · exact Or.inl ⟨i, hi, hc⟩
            · exact Or.inr hc
        · -- the new item did not clash with the accumulated domain, hence with no item of the group
          intro i hi j hj
          rw [List.mem_singleton] at hj
          subst hj
          by_contra hc
          exact h ((hacc (dom j)).mpr ⟨i, hi, by simpa using hc⟩)
      · exact htail g hg

theorem tracks_run (hd : Distributes clash join) (dom : ℕ → D) :
    ∀ (ds : List D) (gs : List (List ℕ × D)) (n : ℕ), Tracks clash dom gs →
      (∀ k, ∀ d ∈ ds[k]?, dom (n + k) = d) → Tracks clash dom (run clash join gs n ds)
  | [], gs, n, h, _ => h
  | d :: ds, gs, n, h, hdom => by
    have hn : dom n = d := hdom 0 d (by simp)
    refine tracks_run hd dom ds _ (n + 1) (hn ▸ tracks_place hd gs h) fun k e he => ?_
    rw [Nat.add_assoc, Nat.add_comm 1 k]
    exact hdom (k + 1) e (by simpa using he)

/-- In an increasing list the smaller of two members comes first. -/
theorem rel_of_pairwise_lt {R : ℕ → ℕ → Prop} {l : List ℕ} (hlt : l.Pairwise (· < ·))
    (hR : l.Pairwise R) {i j : ℕ} (hi : i ∈ l) (hj : j ∈ l) (hij : i < j) : R i j := by
  have hboth := hlt.and hR
  exact List.Pairwise.forall_of_forall_of_flip (R := fun a b => a < b → R a b)
    (fun a _ h => absurd h (lt_irrefl a)) (hboth.imp fun h _ => h.2)
    (hboth.imp fun h hlt => absurd hlt (not_lt.mpr h.1.le)) hi hj hij

/-- **No item clashes with an earlier item of its group.** -/
theorem firstFit_clashFree (hd : Distributes clash join) (ds : List D) {p : List ℕ}
    (hp : p ∈ firstFit clash join ds) {i j : ℕ} (hij : i < j) (hi : i ∈ p) (hj : j ∈ p)
    {d e : D} (hdi : ds[i]? = some d) (hej : ds[j]? = some e) : clash e d = false := by
  obtain ⟨g, hg, rfl⟩ := List.mem_map.mp hp
  have hsort := (sorted_run clash join ds [] 0 (fun g hg => by simp at hg) g hg).1
  have htr := tracks_run hd (fun k => ds.getD k d) ds [] 0 (fun g hg => by simp at hg)
    (fun k e he => by
      rw [Option.mem_def] at he
      simp [List.getD_eq_getElem?_getD, he]) g hg
  have := rel_of_pairwise_lt hsort htr.2 hi hj hij
  simpa [List.getD_eq_getElem?_getD, hdi, hej] using this

end TruthLinked.Lib.FirstFit
