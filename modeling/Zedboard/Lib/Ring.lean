import Mathlib.Data.List.Chain
import Mathlib.Data.List.Nodup
import Mathlib.Order.Lattice

/-!
# Circular singly linked lists

A linked list threaded through memory is, as far as its shape goes, a function `next`.  This file
relates such a function to the lists of elements it runs through.

* `Linked next l` says that `next` leads along `l`; `IsRing next s l` says that it leads from the
  sentinel `s` along `l` and back to `s`.
* `IsRing.splice` is the one edit: a segment between two neighbours is exchanged for another.
  Inserting, unlinking and merging are all instances of it.
* `seek` is the search along `next`, and `IsRing.seek_eq` says that it finds the only element
  with a property from wherever in the ring it starts.
* `IsRing.stops_iff` is about a ring in increasing order with a sentinel that lies below or above
  all of it: the test by which a circular list looks for the place of a new element holds at the
  predecessor of that element and nowhere else.
-/

set_option autoImplicit false

namespace Zedboard

variable {α : Type*} {next next' : α → α}

/-! ## Paths -/

/-- `next` leads from each element of the list to the one after it. -/
def Linked (next : α → α) (l : List α) : Prop := l.IsChain fun a b => next a = b

@[simp] theorem linked_nil : Linked next [] := List.IsChain.nil

@[simp] theorem linked_singleton (a : α) : Linked next [a] := List.IsChain.singleton a

@[simp] theorem linked_cons_cons {a b : α} {l : List α} :
    Linked next (a :: b :: l) ↔ next a = b ∧ Linked next (b :: l) :=
  List.isChain_cons_cons

/-- A path through `c` is a path up to `c` and a path from `c` on. -/
theorem linked_split {c : α} {l r : List α} :
    Linked next (l ++ c :: r) ↔ Linked next (l ++ [c]) ∧ Linked next (c :: r) :=
  List.isChain_split

theorem Linked.next_eq {l r : List α} {a b : α} (h : Linked next (l ++ a :: b :: r)) :
    next a = b :=
  (linked_cons_cons.1 (linked_split.1 h).2).1

/-- A path only depends on `next` at its elements but the last. -/
theorem Linked.congr : ∀ {l : List α}, Linked next l → (∀ a ∈ l.dropLast, next' a = next a) →
    Linked next' l
  | [], _, _ => linked_nil
  | [a], _, _ => linked_singleton a
  | a :: b :: l, h, hc => by
    rw [linked_cons_cons] at h ⊢
    refine ⟨(hc a (by simp)).trans h.1, h.2.congr fun c hc' => hc c ?_⟩
    rw [List.dropLast_cons_cons]
    exact List.mem_cons_of_mem _ hc'

theorem Linked.map_next : ∀ {l : List α}, Linked next l → l.dropLast.map next = l.tail
  | [], _ => rfl
  | [_], _ => rfl
  | a :: b :: l, h => by
    rw [linked_cons_cons] at h
    rw [List.dropLast_cons_cons, List.map_cons, h.2.map_next, h.1]
    rfl

/-! ## Rings -/

/-- `next` leads from `s` along `l` and back to `s`. -/
def IsRing (next : α → α) (s : α) (l : List α) : Prop := Linked next (s :: l ++ [s])

theorem IsRing.map_next {s : α} {l : List α} (h : IsRing next s l) :
    (s :: l).map next = l ++ [s] := by
  have h1 := Linked.map_next h
  rwa [List.dropLast_concat] at h1

/-- `next` does not lead out of the ring. -/
theorem IsRing.next_mem {s p : α} {l : List α} (h : IsRing next s l) (hp : p ∈ s :: l) :
    next p ∈ s :: l := by
  have h1 : next p ∈ (s :: l).map next := List.mem_map_of_mem hp
  rw [h.map_next] at h1
  simpa [or_comm] using h1

/-- In a ring without repetition every element has one predecessor. -/
theorem IsRing.next_inj {s p q : α} {l : List α} (h : IsRing next s l) (hnd : (s :: l).Nodup)
    (hp : p ∈ s :: l) (hq : q ∈ s :: l) (hpq : next p = next q) : p = q := by
  have h1 : ((s :: l).map next).Nodup := by
    rw [h.map_next]
    exact (List.perm_append_singleton s l).nodup_iff.2 hnd
  exact List.inj_on_of_nodup_map h1 hp hq hpq

/-- A ring can be read from any of its elements. -/
theorem IsRing.rotate {s t : α} {l r : List α} (h : IsRing next s (l ++ t :: r)) :
    IsRing next t (r ++ s :: l) := by
  have h1 : Linked next (s :: l ++ t :: (r ++ [s])) := by simpa [IsRing] using h
  obtain ⟨h2, h3⟩ := linked_split.1 h1
  show Linked next (t :: (r ++ s :: l) ++ [t])
  have h4 : t :: (r ++ s :: l) ++ [t] = (t :: r) ++ s :: (l ++ [t]) := by simp
  rw [h4, linked_split]
  exact ⟨h3, h2⟩

theorem IsRing.exists_rotation {s t : α} {l : List α} (h : IsRing next s l) (ht : t ∈ s :: l) :
    ∃ l', IsRing next t l' ∧ (t :: l').Perm (s :: l) := by
  rcases List.mem_cons.1 ht with rfl | ht
  · exact ⟨l, h, List.Perm.refl _⟩
  · obtain ⟨u, v, rfl⟩ := List.append_of_mem ht
    refine ⟨v ++ s :: u, h.rotate, ?_⟩
    have h1 : (t :: (v ++ s :: u)) = (t :: v) ++ (s :: u) := rfl
    have h2 : s :: (u ++ t :: v) = (s :: u) ++ (t :: v) := rfl
    rw [h1, h2]
    exact List.perm_append_comm

/-- **The edit.**  The segment `m` between the neighbours `p` and `q` is exchanged for `m'`; apart
from `p` and the new segment no link changes. -/
theorem IsRing.splice {s p q : α} {d l m r t : List α} (h : IsRing next s (l ++ m ++ r))
    (next' : α → α) (m' : List α) (hl : s :: l = d ++ [p]) (hr : r ++ [s] = q :: t)
    (hkeep : ∀ x, x ∈ d ∨ x ∈ r → next' x = next x)
    (hmid : Linked next' (p :: m' ++ [q])) : IsRing next' s (l ++ m' ++ r) := by
  have h1 : Linked next ((s :: l) ++ (m ++ (r ++ [s]))) := by simpa [IsRing] using h
  have hleft : Linked next (d ++ [p]) := by
    have h2 := List.IsChain.left_of_append h1
    rwa [hl] at h2
  have hright : Linked next (q :: t) := by
    have h2 := List.IsChain.right_of_append (List.IsChain.right_of_append h1)
    rwa [hr] at h2
  have hleft' : Linked next' (d ++ [p]) :=
    hleft.congr fun x hx => hkeep x (Or.inl (by simpa using hx))
  have hright' : Linked next' (q :: t) := by
    refine hright.congr fun x hx => hkeep x (Or.inr ?_)
    rw [← hr, List.dropLast_concat] at hx
    exact hx
  show Linked next' (s :: (l ++ m' ++ r) ++ [s])
  have h3 : s :: (l ++ m' ++ r) ++ [s] = (s :: l) ++ (m' ++ (r ++ [s])) := by simp
  rw [h3, hl, hr, List.append_assoc, List.singleton_append, linked_split]
  refine ⟨hleft', ?_⟩
  rw [← List.cons_append, linked_split]
  exact ⟨hmid, hright'⟩

/-- A ring only depends on `next` at its elements. -/
theorem IsRing.congr {s : α} {l : List α} (h : IsRing next s l)
    (hc : ∀ x ∈ s :: l, next' x = next x) : IsRing next' s l :=
  Linked.congr h fun x hx => hc x (by rwa [List.dropLast_concat] at hx)

/-- A path leads to its elements. -/
theorem Linked.reach : ∀ {l : List α} {p q : α}, Linked next (p :: l) → q ∈ p :: l →
    Relation.ReflTransGen (fun x y => next x = y) p q
  | [], p, q, _, hq => by
    obtain rfl := List.mem_singleton.1 hq
    exact .refl
  | a :: l, p, q, h, hq => by
    obtain ⟨hpa, h'⟩ := linked_cons_cons.1 h
    rcases List.mem_cons.1 hq with rfl | hq
    · exact .refl
    · exact .head hpa (h'.reach hq)

/-- From anywhere on the ring all of it is reached, and nothing else. -/
theorem IsRing.reach_iff {s p q : α} {l : List α} (h : IsRing next s l) (hp : p ∈ s :: l) :
    Relation.ReflTransGen (fun x y => next x = y) p q ↔ q ∈ s :: l := by
  constructor
  · intro hreach
    induction hreach with
    | refl => exact hp
    | tail _ hstep ih =>
      rw [← hstep]
      exact h.next_mem ih
  · intro hq
    obtain ⟨l', h', hperm⟩ := h.exists_rotation hp
    have hall : Linked next (p :: (l' ++ [p])) := h'
    exact hall.reach (by
      rw [← List.cons_append]
      exact List.mem_append_left _ (hperm.mem_iff.2 hq))

/-! ## Searching -/

/-- The first element with the property that is met along `next`, starting at the given one. -/
def seek (next : α → α) (P : α → Bool) : Nat → α → Option α
  | 0, _ => none
  | fuel + 1, p => if P p then some p else seek next P fuel (next p)

theorem seek_mono {P : α → Bool} : ∀ {fuel fuel' : Nat} {p q : α},
    seek next P fuel p = some q → fuel ≤ fuel' → seek next P fuel' p = some q
  | 0, _, _, _, h, _ => by simp [seek] at h
  | fuel + 1, fuel', p, q, h, hle => by
    obtain ⟨f, rfl⟩ : ∃ f, fuel' = f + 1 := ⟨fuel' - 1, by omega⟩
    rw [seek] at h ⊢
    by_cases hp : P p
    · simpa [hp] using h
    · rw [if_neg hp] at h ⊢
      exact seek_mono h (by omega)

/-- From a place that is its own successor the search goes nowhere. -/
theorem seek_self {P : α → Bool} {p : α} (hnext : next p = p) (hP : P p = false) (fuel : Nat) :
    seek next P fuel p = none := by
  induction fuel with
  | zero => rfl
  | succ fuel ih => rw [seek, hP, hnext, ih]; rfl

theorem seek_of_path {P : α → Bool} : ∀ {u : List α} {fuel : Nat} {p q : α} {v : List α},
    Linked next (u ++ q :: v) → (u ++ q :: v).head? = some p → (∀ x ∈ u, P x = false) →
    P q = true → u.length < fuel → seek next P fuel p = some q
  | [], fuel, p, q, v, _, hp, _, hq, hf => by
    obtain ⟨f, rfl⟩ : ∃ f, fuel = f + 1 := ⟨fuel - 1, by simp at hf; omega⟩
    obtain rfl : q = p := by simpa using hp
    rw [seek, if_pos hq]
  | x :: u, fuel, p, q, v, h, hp, hu, hq, hf => by
    obtain ⟨f, rfl⟩ : ∃ f, fuel = f + 1 := ⟨fuel - 1, by simp at hf; omega⟩
    obtain rfl : x = p := by simpa using hp
    rw [seek, if_neg (by simp [hu x (by simp)])]
    have htail : Linked next (u ++ q :: v) := List.IsChain.tail h
    refine seek_of_path htail ?_ (fun y hy => hu y (by simp [hy])) hq (by simpa using hf)
    have h1 : (u ++ q :: v).head? = some (next x) := by
      cases u with
      | nil => rw [← (linked_cons_cons.1 h).1]; rfl
      | cons y u => rw [← (linked_cons_cons.1 h).1]; rfl
    exact h1

/-- **The search finds the only element with the property**, from wherever in the ring it starts,
within one lap. -/
theorem IsRing.seek_eq {P : α → Bool} {s p q : α} {l : List α} {fuel : Nat}
    (h : IsRing next s l) (hp : p ∈ s :: l) (hq : q ∈ s :: l)
    (hP : ∀ x ∈ s :: l, P x = true ↔ x = q) (hf : l.length < fuel) :
    seek next P fuel p = some q := by
  obtain ⟨l', h', hperm⟩ := h.exists_rotation hp
  have hmem : ∀ x, x ∈ p :: l' ↔ x ∈ s :: l := fun x => hperm.mem_iff
  have hlen : l'.length = l.length := by simpa using hperm.length_eq
  classical
  obtain ⟨u, v, huv, hu⟩ := List.eq_append_cons_of_mem ((hmem q).2 hq)
  have hlink : Linked next (u ++ q :: v) := by
    have h1 : Linked next ((u ++ q :: v) ++ [p]) := by rw [← huv]; exact h'
    exact List.IsChain.left_of_append h1
  refine seek_of_path hlink (by rw [← huv]; rfl) (fun x hx => ?_) ((hP q hq).2 rfl) ?_
  · rw [Bool.eq_false_iff]
    intro hx'
    have hxl : x ∈ s :: l := (hmem x).1 (by rw [huv]; simp [hx])
    obtain rfl := (hP x hxl).1 hx'
    exact hu hx
  · have h1 := congrArg List.length huv
    simp only [List.length_cons, List.length_append] at h1
    omega

/-- What is found lies where the search goes. -/
theorem of_seek {P : α → Bool} {C : α → Prop} (hC : ∀ x, C x → C (next x)) :
    ∀ {fuel : Nat} {p q : α}, seek next P fuel p = some q → C p → C q ∧ P q = true
  | 0, _, _, h, _ => by simp [seek] at h
  | fuel + 1, p, q, h, hp => by
    rw [seek] at h
    by_cases hpp : P p
    · rw [if_pos hpp] at h
      cases h
      exact ⟨hp, hpp⟩
    · rw [if_neg hpp] at h
      exact of_seek hC h (hC p hp)

/-- **The first element of a ring with the property**, and the way there. -/
theorem IsRing.exists_first {P : α → Bool} {s : α} {l : List α} (h : IsRing next s l) (hs : s ∉ l)
    (hP : ∃ x ∈ s :: l, P x = true) :
    ∃ u w q, q ∈ s :: l ∧ P q = true ∧ (∀ y ∈ u, P y = false ∧ y ≠ s) ∧ u.length ≤ l.length ∧
      Linked next (s :: u) ∧ (s :: u).getLast? = some w ∧ w ∈ s :: l ∧ next w = q ∧
      seek next P (l.length + 1) (next s) = some q := by
  have hmem : ∀ x, x ∈ l ++ [s] ↔ x ∈ s :: l := fun x => by simp [or_comm]
  have hfind : ((l ++ [s]).find? P).isSome := by
    rw [List.find?_isSome]
    obtain ⟨x, hx, hpx⟩ := hP
    exact ⟨x, (hmem x).2 hx, hpx⟩
  obtain ⟨q, hq⟩ := Option.isSome_iff_exists.1 hfind
  obtain ⟨hpq, u, v, huv, hu⟩ := List.find?_eq_some_iff_append.1 hq
  have hpu : ∀ y ∈ u, P y = false := fun y hy => by simpa using hu y hy
  have hulen : u.length ≤ l.length := by
    have h1 := congrArg List.length huv
    simp only [List.length_append, List.length_cons, List.length_nil] at h1
    omega
  have hring : Linked next ((s :: u) ++ q :: v) := by
    rw [List.cons_append, ← huv]
    exact h
  have hsu : ∀ y ∈ u, y ≠ s := by
    rintro y hy rfl
    -- `s` is only met at the very end
    rcases List.append_eq_append_iff.1 huv with ⟨w, h1, h2⟩ | ⟨w, h1, -⟩
    · have h3 := congrArg List.length h2
      simp only [List.length_append, List.length_cons, List.length_nil] at h3
      obtain rfl : w = [] := List.length_eq_zero_iff.1 (by omega)
      rw [List.append_nil] at h1
      exact hs (h1 ▸ hy)
    · exact hs (by rw [h1]; exact List.mem_append_left _ hy)
  obtain ⟨w, hw⟩ : ∃ w, (s :: u).getLast? = some w :=
    ⟨_, List.getLast?_eq_some_getLast (List.cons_ne_nil _ _)⟩
  obtain ⟨d, hd⟩ := List.getLast?_eq_some_iff.1 hw
  have hlink : next w = q := by
    have h1 : (s :: u) ++ q :: v = d ++ w :: q :: v := by
      rw [hd]
      simp
    rw [h1] at hring
    exact hring.next_eq
  have hwmem : w ∈ s :: l := by
    have h1 : w ∈ s :: u := by rw [hd]; simp
    refine (List.mem_cons.1 h1).elim (fun h => h ▸ List.mem_cons_self) fun h1 => ?_
    exact (hmem w).1 (by rw [huv]; exact List.mem_append_left _ h1)
  have hhead : (u ++ q :: v).head? = some (next s) := by
    cases u with
    | nil => exact congrArg some (linked_cons_cons.1 hring).1.symm
    | cons y u => exact congrArg some (linked_cons_cons.1 hring).1.symm
  refine ⟨u, w, q, (hmem q).1 (by rw [huv]; simp), hpq, fun y hy => ⟨hpu y hy, hsu y hy⟩, hulen,
    List.IsChain.left_of_append hring, hw, hwmem, hlink,
    seek_of_path (List.IsChain.tail hring) hhead hpu hpq (by omega)⟩

/-- The elements met along `next` from `p` until `stop` comes round again. -/
def lap [DecidableEq α] (next : α → α) (stop : α) : Nat → α → Option (List α)
  | 0, _ => none
  | fuel + 1, p =>
    if next p = stop then some [p] else (lap next stop fuel (next p)).map (p :: ·)

theorem lap_of_path [DecidableEq α] {stop : α} : ∀ {l : List α} {fuel : Nat} {p : α},
    Linked next (p :: l ++ [stop]) → stop ∉ l → l.length < fuel →
    lap next stop fuel p = some (p :: l)
  | [], fuel, p, h, _, hf => by
    obtain ⟨f, rfl⟩ : ∃ f, fuel = f + 1 := ⟨fuel - 1, by simp at hf; omega⟩
    rw [lap, if_pos (linked_cons_cons.1 h).1]
  | a :: l, fuel, p, h, hs, hf => by
    obtain ⟨f, rfl⟩ : ∃ f, fuel = f + 1 := ⟨fuel - 1, by simp at hf; omega⟩
    obtain ⟨hnext, h⟩ := linked_cons_cons.1 h
    rw [List.mem_cons, not_or] at hs
    rw [lap, hnext, if_neg (Ne.symm hs.1), lap_of_path h hs.2 (by simpa using hf)]
    rfl

/-- A lap around a ring meets each of its elements once. -/
theorem IsRing.lap_eq [DecidableEq α] {s : α} {l : List α} {fuel : Nat} (h : IsRing next s l)
    (hnd : (s :: l).Nodup) (hf : l.length < fuel) : lap next s fuel s = some (s :: l) :=
  lap_of_path h (List.nodup_cons.1 hnd).1 hf

theorem eq_or_mem_of_cons_eq_concat {s p : α} {l d : List α} (h : s :: l = d ++ [p]) :
    p = s ∧ l = [] ∨ p ∈ l := by
  cases d with
  | nil =>
    obtain ⟨rfl, rfl⟩ : s = p ∧ l = [] := by simpa using h
    exact Or.inl ⟨rfl, rfl⟩
  | cons a d =>
    obtain ⟨-, rfl⟩ : s = a ∧ l = d ++ [p] := by simpa using h
    exact Or.inr (by simp)

/-! ## Sorted rings

The elements `l` before and `r` after the new element `x` are in increasing order, and the
sentinel lies on one side of all of them. -/

variable [LinearOrder α]

/-- The test by which a circular list finds the place of `x`: `x` lies between `p` and its
successor, or `p` is the largest element and `x` lies beyond one of the two ends. -/
def stops (next : α → α) (x p : α) : Bool :=
  (decide (p < x) && decide (x < next p)) ||
    (decide (next p ≤ p) && (decide (p < x) || decide (x < next p)))

/-- The sentinel lies below, or above, all of the list. -/
def Beside (s : α) (l : List α) : Prop := (∀ y ∈ l, s < y) ∨ (∀ y ∈ l, y < s)

theorem Beside.notMem {s : α} {l : List α} (h : Beside s l) : s ∉ l := fun hs => by
  rcases h with h | h
  · exact lt_irrefl s (h s hs)
  · exact lt_irrefl s (h s hs)

/-- At the predecessor of `x` the test holds. -/
theorem stops_pred {s x p q : α} {l r d t : List α} (hl : s :: l = d ++ [p])
    (hr : r ++ [s] = q :: t) (hpq : next p = q) (hlx : ∀ y ∈ l, y < x) (hxr : ∀ y ∈ r, x < y)
    (hs : Beside s (l ++ x :: r)) : stops next x p = true := by
  have hp : p = s ∧ l = [] ∨ p ∈ l := eq_or_mem_of_cons_eq_concat hl
  have hq : q = s ∧ r = [] ∨ q ∈ r := by
    cases r with
    | nil => simp at hr; exact Or.inl ⟨hr.1.symm, rfl⟩
    | cons a r => simp at hr; exact Or.inr (by simp [hr.1])
  have hxs : s < x ∨ x < s := by
    rcases hs with hs | hs
    · exact Or.inl (hs x (by simp))
    · exact Or.inr (hs x (by simp))
  simp only [stops, hpq, Bool.or_eq_true, Bool.and_eq_true, decide_eq_true_eq]
  rcases hp with ⟨rfl, rfl⟩ | hp
  · rcases hq with ⟨rfl, rfl⟩ | hq
    · exact Or.inr ⟨le_refl _, hxs⟩
    · rcases hs with hs | hs
      · exact Or.inl ⟨hs x (by simp), hxr q hq⟩
      · exact Or.inr ⟨(hs q (by simp [hq])).le, Or.inr (hxr q hq)⟩
  · rcases hq with ⟨rfl, rfl⟩ | hq
    · rcases hs with hs | hs
      · exact Or.inr ⟨(hs p (by simp [hp])).le, Or.inl (hlx p hp)⟩
      · exact Or.inl ⟨hlx p hp, hs x (by simp)⟩
    · exact Or.inl ⟨hlx p hp, hxr q hq⟩

theorem not_stops {x p : α} (h1 : p < x → next p ≤ x) (h2 : next p ≤ p → x ≤ p ∧ next p ≤ x) :
    stops next x p = false := by
  rw [Bool.eq_false_iff]
  simp only [stops, ne_eq, Bool.or_eq_true, Bool.and_eq_true, decide_eq_true_eq]
  rintro (⟨h3, h4⟩ | ⟨h3, h4 | h4⟩)
  · exact absurd h4 (not_lt.2 (h1 h3))
  · exact absurd h4 (not_lt.2 (h2 h3).1)
  · exact absurd h4 (not_lt.2 (h2 h3).2)

/-- Before the predecessor `p` of `x` the next element is still below `x`. -/
theorem IsRing.not_stops_before {s x p y : α} {l r d : List α} (h : IsRing next s (l ++ r))
    (hl : s :: l = d ++ [p]) (hsort : l.Pairwise (· < ·)) (hlx : ∀ y ∈ l, y < x)
    (hs : Beside s (l ++ x :: r)) (hy : y ∈ d) : stops next x y = false := by
  obtain ⟨u, v, rfl⟩ := List.append_of_mem hy
  obtain ⟨w, v', hv⟩ := List.exists_cons_of_ne_nil (l := v ++ [p]) (by simp)
  have hsl : s :: l = u ++ y :: w :: v' := by rw [hl, ← hv]; simp
  have hnext : next y = w := by
    have hlinked : Linked next ((s :: l) ++ (r ++ [s])) := by simpa [IsRing] using h
    rw [hsl] at hlinked
    exact Linked.next_eq (by simpa using hlinked)
  cases u with
  | nil =>
    obtain ⟨rfl, rfl⟩ : s = y ∧ l = w :: v' := by simpa using hsl
    refine not_stops (fun _ => hnext ▸ (hlx w (by simp)).le) fun hle => ?_
    rw [hnext] at hle ⊢
    rcases hs with hs | hs
    · exact absurd (hs w (by simp)) (not_lt.2 hle)
    · exact ⟨(hs x (by simp)).le, (hlx w (by simp)).le⟩
  | cons a u =>
    obtain ⟨rfl, rfl⟩ : s = a ∧ l = u ++ y :: w :: v' := by simpa using hsl
    have hyw : y < w := by
      have htail := (List.pairwise_append.1 hsort).2.1
      exact (List.pairwise_cons.1 htail).1 w (by simp)
    exact not_stops (fun _ => hnext ▸ (hlx w (by simp)).le) fun hle =>
      absurd hyw (not_lt.2 (hnext ▸ hle))

/-- Behind the place of `x` the element itself is above `x`. -/
theorem IsRing.not_stops_behind {s x y : α} {l r : List α} (h : IsRing next s (l ++ r))
    (hsort : r.Pairwise (· < ·)) (hxr : ∀ y ∈ r, x < y) (hs : Beside s (l ++ x :: r))
    (hy : y ∈ r) : stops next x y = false := by
  obtain ⟨u, v, rfl⟩ := List.append_of_mem hy
  have hxy : x < y := hxr y (by simp)
  obtain ⟨w, v', hv⟩ := List.exists_cons_of_ne_nil (l := v ++ [s]) (by simp)
  have hnext : next y = w := by
    have hlinked : Linked next ((s :: l ++ u) ++ y :: (v ++ [s])) := by simpa [IsRing] using h
    rw [hv] at hlinked
    exact hlinked.next_eq
  refine not_stops (fun hyx => absurd hyx (not_lt.2 hxy.le)) fun hle => ⟨hxy.le, ?_⟩
  rw [hnext] at hle ⊢
  cases v with
  | nil =>
    obtain ⟨rfl, -⟩ : s = w ∧ [] = v' := by simpa using hv
    rcases hs with hs | hs
    · exact (hs x (by simp)).le
    · exact absurd (hs y (by simp)) (not_lt.2 hle)
  | cons a v =>
    obtain ⟨rfl, -⟩ : a = w ∧ v ++ [s] = v' := by simpa using hv
    have hya : y < a := by
      have htail := (List.pairwise_append.1 hsort).2.1
      exact (List.pairwise_cons.1 htail).1 a (by simp)
    exact absurd hya (not_lt.2 hle)

/-- **The test singles out the predecessor.** -/
theorem IsRing.stops_iff {s x p : α} {l r d : List α} (h : IsRing next s (l ++ r))
    (hl : s :: l = d ++ [p]) (hsort : (l ++ r).Pairwise (· < ·)) (hlx : ∀ y ∈ l, y < x)
    (hxr : ∀ y ∈ r, x < y) (hs : Beside s (l ++ x :: r)) :
    ∀ y ∈ s :: (l ++ r), stops next x y = true ↔ y = p := by
  obtain ⟨q, t, hr⟩ := List.exists_cons_of_ne_nil (l := r ++ [s]) (by simp)
  have hlink : Linked next (d ++ p :: q :: t) := by
    have hlinked : Linked next ((s :: l) ++ (r ++ [s])) := by simpa [IsRing] using h
    rw [hl, hr, List.append_assoc, List.singleton_append] at hlinked
    exact hlinked
  have hpred := stops_pred hl hr hlink.next_eq hlx hxr hs
  obtain ⟨hsortl, hsortr, -⟩ := List.pairwise_append.1 hsort
  intro y hy
  refine ⟨fun hst => ?_, fun hyp => hyp ▸ hpred⟩
  have hmem : y ∈ s :: l ∨ y ∈ r := by simpa [or_assoc] using hy
  rw [hl, List.mem_append, List.mem_singleton] at hmem
  rcases hmem with (hyd | rfl) | hyr
  · rw [h.not_stops_before hl hsortl hlx hs hyd] at hst
    exact Bool.noConfusion hst
  · rfl
  · rw [h.not_stops_behind hsortr hxr hs hyr] at hst
    exact Bool.noConfusion hst

end Zedboard
