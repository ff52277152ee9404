import Mathlib.Algebra.GroupWithZero.Nat
import Mathlib.Data.Nat.Log
import TruthLinked.Lib.Merkle

/-! # What a Merkle root says of its leaves

`joins` lists the pairs that a root is computed from. Where joining has no collision among them and gives no
leaf, a root fixes its list of leaves if the last leaf occurs once (`root_inj`): a tree that duplicates the
last node of an odd layer would otherwise have the root of a longer list. A walk from a leaf up along siblings
ends at the root exactly if the leaf and the siblings are those of the tree (`walk_eq_root_iff`). -/

namespace TruthLinked.Lib.Merkle

variable {D : Type*} {node : D → D → D} {empty : D}

/-! ## The pairs under a root -/

/-- The pairs that one layer joins. -/
def pairs : List D → List (D × D)
  | a :: b :: rest => (a, b) :: pairs rest
  | [a] => [(a, a)]
  | [] => []

/-- The pairs of at most `n` layers. -/
def joinsIn (node : D → D → D) : ℕ → List D → List (D × D)
  | n + 1, a :: b :: rest => pairs (a :: b :: rest) ++ joinsIn node n (layer node (a :: b :: rest))
  | _, _ => []

/-- The pairs under the root of a list. -/
def joins (node : D → D → D) (l : List D) : List (D × D) := joinsIn node l.length l

variable (node) in
theorem length_layer_le (a b : D) (rest : List D) : (layer node (a :: b :: rest)).length ≤ rest.length + 1 := by
  rw [length_layer, List.length_cons, List.length_cons]
  omega

theorem joinsIn_eq_joins {n : ℕ} {l : List D} (h : l.length ≤ n) : joinsIn node n l = joins node l := by
  induction n using Nat.strongRecOn generalizing l with
  | _ n ih =>
    match n, l with
    | 0, [] => rfl
    | n + 1, [] => rfl
    | 0, [a] => rfl
    | n + 1, [a] => rfl
    | 0, a :: b :: rest => simp at h
    | n + 1, a :: b :: rest =>
      have hlen := length_layer_le node a b rest
      simp only [List.length_cons] at h
      rw [joins, List.length_cons, List.length_cons, joinsIn, joinsIn, ih n (by omega) (by omega)]
      congr 1
      exact (ih (rest.length + 1) (by omega) hlen).symm

theorem joins_cons_cons (a b : D) (rest : List D) :
    joins node (a :: b :: rest) = pairs (a :: b :: rest) ++ joins node (layer node (a :: b :: rest)) := by
  rw [joins, List.length_cons, List.length_cons, joinsIn, joinsIn_eq_joins (length_layer_le node a b rest)]

theorem layers_induction {P : List D → Prop} (node : D → D → D) (nil : P []) (single : ∀ a, P [a])
    (more : ∀ a b rest, P (layer node (a :: b :: rest)) → P (a :: b :: rest)) : ∀ l, P l := by
  intro l
  induction hn : l.length using Nat.strongRecOn generalizing l with
  | _ n ih =>
    match l with
    | [] => exact nil
    | [a] => exact single a
    | a :: b :: rest =>
      refine more a b rest (ih _ ?_ _ rfl)
      have hlen := length_layer_le node a b rest
      simp only [List.length_cons] at hn
      omega

variable (node) in
/-- The number of layers above a list. -/
theorem clog_layer (a b : D) (rest : List D) :
    Nat.clog 2 (a :: b :: rest).length = Nat.clog 2 (layer node (a :: b :: rest)).length + 1 := by
  rw [length_layer, Nat.clog_of_two_le (by omega) (by simp)]
  rfl

/-! ## No collision -/

/-- Joining the pairs of `S` has no collision, and gives no leaf. -/
structure Tells (node : D → D → D) (Leaf : D → Prop) (S : D → D → Prop) : Prop where
  inj : ∀ {a b a' b'}, S a b → S a' b' → node a b = node a' b' → a = a' ∧ b = b'
  apart : ∀ {a b x}, S a b → Leaf x → node a b ≠ x

/-- What stands `k` layers above the leaves. -/
inductive Level (node : D → D → D) (Leaf : D → Prop) (S : D → D → Prop) : ℕ → D → Prop
  | leaf {x : D} (h : Leaf x) : Level node Leaf S 0 x
  | node {k : ℕ} {a b : D} (pair : S a b) (left : Level node Leaf S k a) (right : Level node Leaf S k b) :
    Level node Leaf S (k + 1) (node a b)

section Roots
variable {Leaf : D → Prop} {S : D → D → Prop} {k m : ℕ} {x c c' : D} {l l' : List D}

/-- **A digest stands in one layer only.** -/
theorem Level.unique (ht : Tells node Leaf S) (h : Level node Leaf S k x) (h' : Level node Leaf S m x) :
    k = m := by
  induction h generalizing m with
  | leaf hx =>
    cases h' with
    | leaf _ => rfl
    | node pair left right => exact absurd rfl (ht.apart pair hx)
  | @node k a b pair left right ihleft ihright =>
    generalize hy : node a b = y at h'
    cases h' with
    | leaf hx => exact absurd hy (ht.apart pair hx)
    | @node m a' b' pair' left' right' =>
      obtain ⟨rfl, -⟩ := ht.inj pair pair' hy
      rw [ihleft left']

/-- The pairs of a list are among `S`. -/
def Within (S : D → D → Prop) (ps : List (D × D)) : Prop := ∀ p ∈ ps, S p.1 p.2

theorem within_append {ps qs : List (D × D)} : Within S (ps ++ qs) ↔ Within S ps ∧ Within S qs :=
  List.forall_mem_append

theorem level_layer (hl : ∀ x ∈ l, Level node Leaf S k x) (hs : Within S (pairs l)) :
    ∀ x ∈ layer node l, Level node Leaf S (k + 1) x := by
  fun_induction layer node l with
  | case1 a b rest ih =>
    rw [pairs] at hs
    obtain ⟨hpair, hrest⟩ := List.forall_mem_cons.mp hs
    obtain ⟨ha, hb, hl⟩ := (List.forall_mem_cons.mp hl).imp_right List.forall_mem_cons.mp
    exact List.forall_mem_cons.mpr ⟨.node hpair ha hb, ih hl hrest⟩
  | case2 a =>
    have ha := hl a (List.mem_singleton_self a)
    intro x hx
    obtain rfl := List.mem_singleton.mp hx
    exact .node (hs (a, a) (List.mem_singleton_self _)) ha ha
  | case3 =>
    intro x hx
    cases hx

variable (empty) in
/-- **The root** stands above all the layers of its list. -/
theorem level_root (hne : l ≠ []) (hl : ∀ x ∈ l, Level node Leaf S k x) (hs : Within S (joins node l)) :
    Level node Leaf S (k + Nat.clog 2 l.length) (root node empty l) := by
  induction l using layers_induction node generalizing k with
  | nil => exact absurd rfl hne
  | single a => exact hl a (List.mem_singleton_self a)
  | more a b rest ih =>
    rw [joins_cons_cons, within_append] at hs
    rw [root_cons_cons, clog_layer node, ← Nat.add_assoc, Nat.add_right_comm]
    exact ih (by simp [layer]) (level_layer hl hs.1) hs.2

/-- The last of a list, which occurs once. -/
def Capped (c : D) : List D → Prop
  | [] => False
  | [x] => x = c
  | x :: y :: rest => x ≠ c ∧ Capped c (y :: rest)

theorem capped_concat {l : List D} (h : c ∉ l) : Capped c (l ++ [c]) := by
  induction l with
  | nil => rfl
  | cons x l ih =>
    obtain ⟨hx, hl⟩ := not_or.mp (mt List.mem_cons.mpr h)
    cases l with
    | nil => exact ⟨Ne.symm hx, rfl⟩
    | cons y l => exact ⟨Ne.symm hx, ih hl⟩

theorem capped_layer (ht : Tells node Leaf S) (hc : Capped c l) (hs : Within S (pairs l)) :
    ∃ x, (x, c) ∈ pairs l ∧ Capped (node x c) (layer node l) := by
  induction hn : l.length using Nat.strongRecOn generalizing l with
  | _ n ih =>
    match l with
    | [] => exact hc.elim
    | [x] =>
      obtain rfl : x = c := hc
      exact ⟨x, List.mem_singleton_self _, rfl⟩
    | [a, b] =>
      obtain ⟨ha, rfl⟩ : a ≠ c ∧ b = c := hc
      exact ⟨a, List.mem_singleton_self _, rfl⟩
    | a :: b :: y :: rest =>
      obtain ⟨ha, hb, hrest⟩ : a ≠ c ∧ b ≠ c ∧ Capped c (y :: rest) := hc
      rw [pairs] at hs
      obtain ⟨hpair, hpairs⟩ := List.forall_mem_cons.mp hs
      obtain ⟨x, hx, hcap⟩ := ih (y :: rest).length (by simp at hn ⊢; omega) hrest hpairs rfl
      refine ⟨x, by rw [pairs]; exact List.mem_cons_of_mem _ hx, ?_⟩
      have hne : node a b ≠ node x c := fun heq => hb (ht.inj hpair (hpairs _ hx) heq).2
      rw [layer]
      cases hlayer : layer node (y :: rest) with
      | nil => rw [hlayer] at hcap; exact hcap.elim
      | cons z zs =>
        rw [hlayer] at hcap
        exact ⟨hne, hcap⟩

theorem layer_ne_nil (y : D) (rest : List D) : layer node (y :: rest) ≠ [] := by
  cases rest <;> simp [layer]

/-- **A layer fixes the layer under it**, if its last digest occurs once. -/
theorem layer_inj (ht : Tells node Leaf S) (hc : Capped c l) (hc' : Capped c' l') (hs : Within S (pairs l))
    (hs' : Within S (pairs l')) (h : layer node l = layer node l') : l = l' := by
  induction hn : l.length using Nat.strongRecOn generalizing l l' with
  | _ n ih =>
    match l, l' with
    | [], _ => exact hc.elim
    | _ :: _, [] => exact hc'.elim
    | [x], [y] =>
      obtain ⟨rfl, -⟩ :=
        ht.inj (hs _ (List.mem_singleton_self _)) (hs' _ (List.mem_singleton_self _)) (List.cons.inj h).1
      rfl
    | [x], [a, b] =>
      obtain ⟨hxa, hxb⟩ :=
        ht.inj (hs _ (List.mem_singleton_self _)) (hs' _ (List.mem_singleton_self _)) (List.cons.inj h).1
      obtain ⟨hne, hb⟩ : a ≠ c' ∧ b = c' := hc'
      exact absurd (hxa.symm.trans (hxb.trans hb)) hne
    | [a, b], [x] =>
      obtain ⟨hax, hbx⟩ :=
        ht.inj (hs _ (List.mem_singleton_self _)) (hs' _ (List.mem_singleton_self _)) (List.cons.inj h).1
      obtain ⟨hne, hb⟩ : a ≠ c ∧ b = c := hc
      exact absurd (hax.trans (hbx.symm.trans hb)) hne
    | [x], a :: b :: y :: rest => exact absurd (List.cons.inj h).2.symm (layer_ne_nil y rest)
    | a :: b :: y :: rest, [x] => exact absurd (List.cons.inj h).2 (layer_ne_nil y rest)
    | [a, b], [a', b'] =>
      obtain ⟨rfl, rfl⟩ :=
        ht.inj (hs _ (List.mem_singleton_self _)) (hs' _ (List.mem_singleton_self _)) (List.cons.inj h).1
      rfl
    | [a, b], a' :: b' :: y :: rest => exact absurd (List.cons.inj h).2.symm (layer_ne_nil y rest)
    | a' :: b' :: y :: rest, [a, b] => exact absurd (List.cons.inj h).2 (layer_ne_nil y rest)
    | a :: b :: y :: rest, a' :: b' :: y' :: rest' =>
      obtain ⟨-, -, hrest⟩ : a ≠ c ∧ b ≠ c ∧ Capped c (y :: rest) := hc
      obtain ⟨-, -, hrest'⟩ : a' ≠ c' ∧ b' ≠ c' ∧ Capped c' (y' :: rest') := hc'
      rw [pairs] at hs hs'
      obtain ⟨hpair, hpairs⟩ := List.forall_mem_cons.mp hs
      obtain ⟨hpair', hpairs'⟩ := List.forall_mem_cons.mp hs'
      obtain ⟨hhead, htail⟩ := List.cons.inj h
      obtain ⟨rfl, rfl⟩ := ht.inj hpair hpair' hhead
      rw [ih (y :: rest).length (by simp at hn ⊢; omega) hrest hrest' hpairs hpairs' htail rfl]

/-- **A root fixes its leaves**, if the last one occurs once. -/
theorem root_inj (ht : Tells node Leaf S) (hl : ∀ x ∈ l, Level node Leaf S k x)
    (hl' : ∀ x ∈ l', Level node Leaf S k x) (hc : Capped c l) (hc' : Capped c' l') (hs : Within S (joins node l))
    (hs' : Within S (joins node l')) (h : root node empty l = root node empty l') : l = l' := by
  have hne : ∀ {c : D} {l : List D}, Capped c l → l ≠ [] := by
    rintro c l hc rfl
    exact hc
  have hdepth : Nat.clog 2 l.length = Nat.clog 2 l'.length := by
    have hroot := level_root empty (hne hc) hl hs
    have hroot' := level_root empty (hne hc') hl' hs'
    rw [h] at hroot
    exact Nat.add_left_cancel (hroot.unique ht hroot')
  induction l using layers_induction node generalizing l' k c c' with
  | nil => exact hc.elim
  | single a =>
    match l' with
    | [] => exact hc'.elim
    | [a'] => exact congrArg (fun x => [x]) h
    | a' :: b' :: rest' =>
      rw [clog_layer node] at hdepth
      simp at hdepth
  | more a b rest ih =>
    match l' with
    | [] => exact hc'.elim
    | [a'] =>
      rw [clog_layer node] at hdepth
      simp at hdepth
    | a' :: b' :: rest' =>
      rw [joins_cons_cons, within_append] at hs hs'
      rw [root_cons_cons, root_cons_cons] at h
      rw [clog_layer node, clog_layer node] at hdepth
      obtain ⟨x, -, hcap⟩ := capped_layer ht hc hs.1
      obtain ⟨x', -, hcap'⟩ := capped_layer ht hc' hs'.1
      exact layer_inj ht hc hc' hs.1 hs'.1
        (ih (level_layer hl hs.1) (level_layer hl' hs'.1) hcap hcap' hs.2 hs'.2 h
        (Nat.add_right_cancel hdepth))

end Roots

/-! ## Walks from a leaf to the root -/

/-- The digest that a leaf at a position and the siblings above it lead to. -/
def walk (node : D → D → D) : ℕ → D → List D → D
  | _, x, [] => x
  | i, x, s :: siblings => walk node (i / 2) (if i % 2 = 0 then node x s else node s x) siblings

/-- The pairs that a walk joins. -/
def walked (node : D → D → D) : ℕ → D → List D → List (D × D)
  | _, _, [] => []
  | i, x, s :: siblings =>
    (if i % 2 = 0 then (x, s) else (s, x)) ::
      walked node (i / 2) (if i % 2 = 0 then node x s else node s x) siblings

/-- The sibling of a position; the last of an odd layer is its own. -/
def sibling (l : List D) (i : ℕ) : Option D := if i % 2 = 0 then l[i + 1]?.or l[i]? else l[i - 1]?

/-- The siblings above a position, through at most `n` layers. -/
def siblingsIn (node : D → D → D) : ℕ → List D → ℕ → List D
  | n + 1, a :: b :: rest, i =>
    (sibling (a :: b :: rest) i).toList ++ siblingsIn node n (layer node (a :: b :: rest)) (i / 2)
  | _, _, _ => []

/-- The siblings above a position. -/
def siblings (node : D → D → D) (l : List D) (i : ℕ) : List D := siblingsIn node l.length l i

/-- The position in a list of length `n` that a position of the full tree with `k` layers stands for. -/
def place : ℕ → ℕ → ℕ → ℕ
  | 0, _, _ => 0
  | k + 1, n, i =>
    if 2 * place k ((n + 1) / 2) (i / 2) + i % 2 < n then 2 * place k ((n + 1) / 2) (i / 2) + i % 2
    else 2 * place k ((n + 1) / 2) (i / 2)

theorem siblingsIn_eq_siblings {n : ℕ} {l : List D} (h : l.length ≤ n) (i : ℕ) :
    siblingsIn node n l i = siblings node l i := by
  induction n using Nat.strongRecOn generalizing l i with
  | _ n ih =>
    match n, l with
    | 0, [] => rfl
    | n + 1, [] => rfl
    | 0, [a] => rfl
    | n + 1, [a] => rfl
    | 0, a :: b :: rest => simp at h
    | n + 1, a :: b :: rest =>
      have hlen := length_layer_le node a b rest
      simp only [List.length_cons] at h
      rw [siblings, List.length_cons, List.length_cons, siblingsIn, siblingsIn, ih n (by omega) (by omega)]
      congr 1
      exact (ih (rest.length + 1) (by omega) hlen _).symm

theorem siblings_cons_cons (a b : D) (rest : List D) (i : ℕ) :
    siblings node (a :: b :: rest) i =
      (sibling (a :: b :: rest) i).toList ++ siblings node (layer node (a :: b :: rest)) (i / 2) := by
  rw [siblings, List.length_cons, List.length_cons, siblingsIn,
    siblingsIn_eq_siblings (length_layer_le node a b rest)]

theorem getElem?_pairs (l : List D) (j : ℕ) :
    (pairs l)[j]? = l[2 * j]?.map fun a => (a, l[2 * j + 1]?.getD a) := by
  fun_induction pairs l generalizing j with
  | case1 a b rest ih =>
    cases j with
    | zero => rfl
    | succ j =>
      rw [List.getElem?_cons_succ, ih]
      rfl
  | case2 a =>
    cases j with
    | zero => rfl
    | succ j => simp
  | case3 => simp

variable (node) in
theorem layer_eq_map (l : List D) : layer node l = (pairs l).map fun p => node p.1 p.2 := by
  fun_induction pairs l with
  | case1 a b rest ih => rw [layer, ih, List.map_cons]
  | case2 a => rfl
  | case3 => rfl

/-- A position of the full tree stands for itself, if the list is so long. -/
theorem place_eq_self {k n i : ℕ} (hn : n ≤ 2 ^ k) (hi : i < n) : place k n i = i := by
  induction k generalizing n i with
  | zero =>
    rw [Nat.pow_zero] at hn
    rw [place]
    omega
  | succ k ih =>
    rw [Nat.pow_succ] at hn
    rw [place, ih (by omega) (by omega)]
    have hdiv := Nat.div_add_mod i 2
    rw [hdiv, if_pos hi]

theorem place_lt {k n i : ℕ} (hn : 0 < n) : place k n i < n := by
  induction k generalizing n i with
  | zero => exact hn
  | succ k ih =>
    have hlt := ih (n := (n + 1) / 2) (i := i / 2) (by omega)
    rw [place]
    split_ifs with h
    · exact h
    · omega

/-- **The pair over a position**: the digest there and its sibling, in the order of the position. -/
theorem pair_of_place {l : List D} {j i : ℕ} {u v : D} (h : (pairs l)[j]? = some (u, v)) :
    ∃ p, (p = if 2 * j + i % 2 < l.length then 2 * j + i % 2 else 2 * j) ∧ p / 2 = j ∧
      l[p]? = some (if i % 2 = 0 then u else v) ∧ sibling l p = some (if i % 2 = 0 then v else u) := by
  rw [getElem?_pairs, Option.map_eq_some_iff] at h
  obtain ⟨a, ha, heq⟩ := h
  obtain ⟨rfl, rfl⟩ := Prod.mk.inj heq
  have hlt : 2 * j < l.length := (List.getElem?_eq_some_iff.mp ha).1
  refine ⟨_, rfl, ?_⟩
  rcases Nat.mod_two_eq_zero_or_one i with hi | hi
  · rw [hi, Nat.add_zero, if_pos hlt, if_pos rfl, if_pos rfl]
    refine ⟨by omega, ha, ?_⟩
    rw [sibling, if_pos (by omega), ha]
    cases l[2 * j + 1]? <;> rfl
  · rw [hi, if_neg Nat.one_ne_zero, if_neg Nat.one_ne_zero]
    by_cases hnext : 2 * j + 1 < l.length
    · rw [if_pos hnext, sibling, if_neg (by omega), Nat.add_sub_cancel, List.getElem?_eq_getElem hnext]
      exact ⟨by omega, rfl, ha⟩
    · have hnone : l[2 * j + 1]? = none := List.getElem?_eq_none (by omega)
      rw [if_neg hnext, sibling, if_pos (by omega), hnone, ha]
      exact ⟨by omega, rfl, rfl⟩

theorem exists_pair (l : List D) {i : ℕ} (hi : i < l.length) : ∃ q, (pairs l)[i / 2]? = some q := by
  rw [getElem?_pairs, List.getElem?_eq_getElem (show 2 * (i / 2) < l.length by omega)]
  exact ⟨_, rfl⟩

/-- **The siblings of a leaf** lead to the root. -/
theorem walk_siblings {l : List D} {i : ℕ} {x : D} (hx : l[i]? = some x) :
    walk node i x (siblings node l i) = root node empty l ∧ (siblings node l i).length = Nat.clog 2 l.length := by
  induction l using layers_induction node generalizing i x with
  | nil => cases hx
  | single a =>
    cases i with
    | zero => exact ⟨(Option.some.inj hx).symm, rfl⟩
    | succ i => cases hx
  | more a b rest ih =>
    have hi : i < (a :: b :: rest).length := (List.getElem?_eq_some_iff.mp hx).1
    obtain ⟨⟨u, v⟩, huv⟩ := exists_pair _ hi
    obtain ⟨p, hp, -, hat, hsib⟩ := pair_of_place (i := i) huv
    rw [Nat.div_add_mod, if_pos hi] at hp
    subst hp
    have hup : (layer node (a :: b :: rest))[p / 2]? = some (node u v) := by
      rw [layer_eq_map node, List.getElem?_map, huv]
      rfl
    obtain ⟨hwalk, hlen⟩ := ih hup
    rw [siblings_cons_cons, hsib, Option.toList_some, List.singleton_append, clog_layer node,
      List.length_cons, hlen, walk, root_cons_cons, ← hwalk]
    rw [hx] at hat
    refine ⟨?_, rfl⟩
    rcases Nat.mod_two_eq_zero_or_one p with hmod | hmod
    · rw [if_pos hmod] at hat ⊢
      rw [if_pos hmod, Option.some.inj hat]
    · have hodd : ¬ p % 2 = 0 := by omega
      rw [if_neg hodd] at hat ⊢
      rw [if_neg hodd, Option.some.inj hat]

theorem length_siblings {l : List D} {i : ℕ} {x : D} (hx : l[i]? = some x) :
    (siblings node l i).length = Nat.clog 2 l.length := (@walk_siblings D node x l i x hx).2

/-- **What a walk proves.** Along as many siblings as there are layers it ends at the root exactly if it
starts at the digest of the list for which the position stands, and takes the siblings of the tree. -/
theorem walk_eq_root_iff {S : D → D → Prop} {l ps : List D} {i : ℕ} {x : D}
    (hinj : ∀ {a b a' b'}, S a b → S a' b' → node a b = node a' b' → a = a' ∧ b = b') (hne : l ≠ [])
    (hlen : ps.length = Nat.clog 2 l.length) (hs : Within S (joins node l)) (hw : Within S (walked node i x ps)) :
    walk node i x ps = root node empty l ↔
      l[place (Nat.clog 2 l.length) l.length i]? = some x ∧
        ps = siblings node l (place (Nat.clog 2 l.length) l.length i) := by
  induction l using layers_induction node generalizing i x ps with
  | nil => exact absurd rfl hne
  | single a =>
    obtain rfl := List.length_eq_zero_iff.mp hlen
    change x = a ↔ some a = some x ∧ [] = []
    simp [eq_comm]
  | more a b rest ih =>
    rw [joins_cons_cons, within_append] at hs
    rw [clog_layer node] at hlen ⊢
    obtain ⟨s, ps, rfl⟩ := List.exists_cons_of_length_eq_add_one hlen
    rw [walked] at hw
    obtain ⟨hpair, hrest⟩ := List.forall_mem_cons.mp hw
    have hlayer : (layer node (a :: b :: rest)).length = ((a :: b :: rest).length + 1) / 2 := length_layer node _
    have hup := ih (layer_ne_nil a (b :: rest)) (by simpa using hlen) hs.2 hrest
    generalize hk : Nat.clog 2 (layer node (a :: b :: rest)).length = k at hup ⊢
    rw [hlayer] at hup
    have hj : place k (((a :: b :: rest).length + 1) / 2) (i / 2) < (pairs (a :: b :: rest)).length := by
      have hmap := congrArg List.length (layer_eq_map node (a :: b :: rest))
      rw [List.length_map, hlayer] at hmap
      rw [← hmap]
      exact place_lt (by simp)
    rw [place]
    generalize place k (((a :: b :: rest).length + 1) / 2) (i / 2) = j at hup hj ⊢
    obtain ⟨⟨u, v⟩, huv⟩ : ∃ q, (pairs (a :: b :: rest))[j]? = some q := ⟨_, List.getElem?_eq_getElem hj⟩
    obtain ⟨p, hp, hhalf, hat, hsib⟩ := pair_of_place (i := i) huv
    rw [← hp, walk, root_cons_cons, hup, siblings_cons_cons, hhalf, hat, hsib, layer_eq_map node,
      List.getElem?_map, huv]
    have hS := hs.1 (u, v) (List.mem_of_getElem? huv)
    rw [Option.map_some, Option.toList_some, List.singleton_append, List.cons.injEq, Option.some.injEq,
      Option.some.injEq]
    rcases Nat.mod_two_eq_zero_or_one i with hi | hi
    · rw [hi, if_pos rfl] at hpair ⊢
      rw [if_pos rfl, if_pos rfl]
      refine ⟨fun h => ?_, fun h => ?_⟩
      · obtain ⟨rfl, rfl⟩ := hinj hS hpair h.1
        exact ⟨rfl, rfl, h.2⟩
      · obtain ⟨rfl, rfl, hps⟩ := h
        exact ⟨rfl, hps⟩
    · rw [hi, if_neg Nat.one_ne_zero] at hpair ⊢
      rw [if_neg Nat.one_ne_zero, if_neg Nat.one_ne_zero]
      refine ⟨fun h => ?_, fun h => ?_⟩
      · obtain ⟨rfl, rfl⟩ := hinj hS hpair h.1
        exact ⟨rfl, rfl, h.2⟩
      · obtain ⟨rfl, rfl, hps⟩ := h
        exact ⟨rfl, hps⟩

end TruthLinked.Lib.Merkle
