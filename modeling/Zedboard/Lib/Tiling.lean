import Mathlib.Data.List.Basic
import Mathlib.Data.List.Pairwise
import Mathlib.Tactic.Ring

/-!
# Intervals cut into consecutive pieces

`Tiles start len a l e` says that the pieces of the list `l`, each from `start b` and `len b`
long, follow each other without gap or overlap from `a` to `e`.  Pieces may not be empty, which is
what makes a walk from piece to piece come to an end (`Tiles.sweep`).
-/

set_option autoImplicit false

namespace Zedboard

variable {β : Type*} {start len : β → Nat}

/-- The pieces of `l` follow each other from `a` to `e`. -/
def Tiles (start len : β → Nat) : Nat → List β → Nat → Prop
  | a, [], e => a = e
  | a, b :: l, e => start b = a ∧ 0 < len b ∧ Tiles start len (a + len b) l e

@[simp] theorem tiles_nil {a e : Nat} : Tiles start len a [] e ↔ a = e := Iff.rfl

@[simp] theorem tiles_cons {a e : Nat} {b : β} {l : List β} :
    Tiles start len a (b :: l) e ↔
      start b = a ∧ 0 < len b ∧ Tiles start len (a + len b) l e :=
  Iff.rfl

theorem tiles_append {l r : List β} : ∀ {a e : Nat},
    Tiles start len a (l ++ r) e ↔ ∃ c, Tiles start len a l c ∧ Tiles start len c r e := by
  induction l with
  | nil => intro a e; simp
  | cons b l ih => intro a e; simp [ih, and_assoc]

/-- Cutting a tiling at one of its pieces. -/
theorem tiles_append_cons {l r : List β} {b : β} {a e : Nat} :
    Tiles start len a (l ++ b :: r) e ↔
      Tiles start len a l (start b) ∧ 0 < len b ∧ Tiles start len (start b + len b) r e := by
  rw [tiles_append]
  constructor
  · rintro ⟨c, hl, rfl, hb, hr⟩
    exact ⟨hl, hb, hr⟩
  · rintro ⟨hl, hb, hr⟩
    exact ⟨start b, hl, rfl, hb, hr⟩

theorem Tiles.le {l : List β} : ∀ {a e : Nat}, Tiles start len a l e → a ≤ e := by
  induction l with
  | nil => intro a e h; exact (tiles_nil.1 h).le
  | cons b l ih => intro a e h; have := ih (tiles_cons.1 h).2.2; omega

/-- Every piece lies within the interval. -/
theorem Tiles.bounds {l : List β} {a e : Nat} {b : β} (h : Tiles start len a l e) (hb : b ∈ l) :
    a ≤ start b ∧ 0 < len b ∧ start b + len b ≤ e := by
  obtain ⟨u, v, rfl⟩ := List.append_of_mem hb
  obtain ⟨hu, hpos, hv⟩ := tiles_append_cons.1 h
  exact ⟨hu.le, hpos, hv.le⟩

/-- Earlier pieces end before later ones begin. -/
theorem Tiles.pairwise {l : List β} : ∀ {a e : Nat}, Tiles start len a l e →
    l.Pairwise fun b c => start b + len b ≤ start c := by
  induction l with
  | nil => intros; exact List.Pairwise.nil
  | cons b l ih =>
    intro a e h
    obtain ⟨rfl, -, hr⟩ := tiles_cons.1 h
    exact List.pairwise_cons.2 ⟨fun c hc => (hr.bounds hc).1, ih hr⟩

/-- The pieces start at different places, in increasing order. -/
theorem Tiles.sorted {l : List β} {a e : Nat} (h : Tiles start len a l e) :
    (l.map start).Pairwise (· < ·) := by
  rw [List.pairwise_map]
  refine List.Pairwise.imp_of_mem (fun {b c} hb _ hbc => ?_) h.pairwise
  have := (h.bounds hb).2.1
  omega

/-- Two different pieces do not overlap. -/
theorem Tiles.apart {l r : List β} {a e : Nat} {b c : β} (h : Tiles start len a (l ++ b :: r) e)
    (hc : c ∈ l ∨ c ∈ r) : start c + len c ≤ start b ∨ start b + len b ≤ start c := by
  obtain ⟨hl, -, hr⟩ := tiles_append_cons.1 h
  rcases hc with hc | hc
  · exact Or.inl (hl.bounds hc).2.2
  · exact Or.inr (hr.bounds hc).1

/-! ## Walking over the pieces -/

/-- Go from `p` to `step p` until `e` is reached: the places visited, and where the walk ended. -/
def sweep (step : Nat → Nat) (e : Nat) : Nat → Nat → Option (List Nat × Nat)
  | 0, _ => none
  | fuel + 1, p =>
    if p < e then (sweep step e fuel (step p)).map fun r => (p :: r.1, r.2)
    else some ([], p)

/-- **The walk visits every piece once, in order, and ends where the interval does.** -/
theorem Tiles.sweep_eq {step : Nat → Nat} {l : List β} : ∀ {a e fuel : Nat},
    Tiles start len a l e → (∀ b ∈ l, step (start b) = start b + len b) → l.length < fuel →
    sweep step e fuel a = some (l.map start, e) := by
  induction l with
  | nil =>
    intro a e fuel h _ hf
    obtain ⟨f, rfl⟩ : ∃ f, fuel = f + 1 := ⟨fuel - 1, by simp at hf; omega⟩
    rw [sweep, tiles_nil.1 h, if_neg (lt_irrefl e)]
    rfl
  | cons b l ih =>
    intro a e fuel h hw hf
    obtain ⟨f, rfl⟩ : ∃ f, fuel = f + 1 := ⟨fuel - 1, by simp at hf; omega⟩
    obtain ⟨rfl, hpos, hr⟩ := tiles_cons.1 h
    have hle := hr.le
    rw [sweep, if_pos (by omega), hw b (by simp),
      ih hr (fun c hc => hw c (by simp [hc])) (by simpa using hf)]
    rfl

/-- There are no more pieces than places. -/
theorem Tiles.length_le {l : List β} : ∀ {a e : Nat}, Tiles start len a l e →
    a + l.length ≤ e := by
  induction l with
  | nil => intro a e h; have := tiles_nil.1 h; simp; omega
  | cons b l ih =>
    intro a e h
    obtain ⟨rfl, hpos, hr⟩ := tiles_cons.1 h
    have := ih hr
    simp only [List.length_cons]
    omega

end Zedboard
