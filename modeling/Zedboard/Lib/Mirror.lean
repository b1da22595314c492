import Mathlib.Logic.Equiv.Basic

/-!
# Reversal in place

A segment of `n` places from `a` on is reversed by exchanging its outermost pair, then the next one,
and so on to the middle.  The contents of the places are a function, and everything is said about
the places: `mirror a n` takes each of them to the one that its contents come from.

* `mirrorEnds_half` says that half as many exchanges as there are places reverse a segment;
* `mirrorGroups a g n` reverses `n` segments of `g` places each, one behind the other, and undoes
  itself (`mirrorGroups_involutive`).
-/

set_option autoImplicit false

namespace Zedboard

/-! ## One segment -/

/-- The place at the same distance from the other end of the segment of `n` places from `a` on.
Places outside are their own. -/
def mirror (a n x : Nat) : Nat := if a ≤ x ∧ x < a + n then a + (n - 1 - (x - a)) else x

variable {a g n x : Nat}

theorem mirror_of_inside (h1 : a ≤ x) (h2 : x < a + n) : mirror a n x = a + (n - 1 - (x - a)) :=
  if_pos ⟨h1, h2⟩

theorem mirror_of_outside (h : x < a ∨ a + n ≤ x) : mirror a n x = x := if_neg (by omega)

theorem mirror_add {i : Nat} (h : i < n) : mirror a n (a + i) = a + (n - 1 - i) := by
  rw [mirror_of_inside (by omega) (by omega), Nat.add_sub_cancel_left]

/-- The segment with its `j` outermost pairs exchanged. -/
def mirrorEnds (a n j x : Nat) : Nat :=
  if x < a + j ∨ a + n ≤ x + j then mirror a n x else x

theorem mirrorEnds_zero : mirrorEnds a n 0 = id := by
  funext x
  rw [mirrorEnds]
  split
  · exact mirror_of_outside (by omega)
  · rfl

/-- One exchange more. -/
theorem mirrorEnds_succ {j : Nat} (h : 2 * (j + 1) ≤ n) :
    mirrorEnds a n (j + 1) = mirrorEnds a n j ∘ Equiv.swap (a + (n - 1) - j) (a + j) := by
  have hkept : ∀ y, a + j ≤ y → y < a + n - j → mirrorEnds a n j y = y :=
    fun y h1 h2 => if_neg (by omega)
  funext x
  rw [Function.comp_apply]
  by_cases hlow : x = a + j
  · rw [hlow, Equiv.swap_apply_right, hkept _ (by omega) (by omega), mirrorEnds,
      if_pos (by omega), mirror_add (by omega)]
    omega
  by_cases hhigh : x = a + (n - 1) - j
  · rw [hhigh, Equiv.swap_apply_left, hkept _ (by omega) (by omega), mirrorEnds,
      if_pos (by omega), mirror_of_inside (by omega) (by omega)]
    omega
  -- every other place is as it was before
  rw [Equiv.swap_apply_of_ne_of_ne hhigh hlow, mirrorEnds, mirrorEnds]
  split
  · rw [if_pos (by omega)]
  · rw [if_neg (by omega)]

/-- **Half as many exchanges reverse the segment.** -/
theorem mirrorEnds_half {j : Nat} (h : n = 2 * j) : mirrorEnds a n j = mirror a n := by
  funext x
  rw [mirrorEnds]
  split
  · rfl
  · omega

/-! ## Segments one behind the other -/

/-- Each of the `n` segments of `g` places from `a` on is reversed. -/
def mirrorGroups (a g n x : Nat) : Nat :=
  if a ≤ x ∧ x < a + g * n then mirror (a + g * ((x - a) / g)) g x else x

theorem mirrorGroups_zero : mirrorGroups a g 0 = id := by
  funext x
  rw [mirrorGroups, if_neg (by rw [Nat.mul_zero]; omega), id]

theorem mirrorGroups_of_outside (h : x < a ∨ a + g * n ≤ x) : mirrorGroups a g n x = x :=
  if_neg (by omega)

/-- A segment ends where the next one begins, if not before. -/
theorem group_le {i : Nat} (g : Nat) (hi : i < n) : g * i + g ≤ g * n := by
  rw [← Nat.mul_succ]
  exact Nat.mul_le_mul_left g hi

/-- The place `j` of the segment `i`. -/
theorem mirrorGroups_add {i j : Nat} (hi : i < n) (hj : j < g) :
    mirrorGroups a g n (a + g * i + j) = a + g * i + (g - 1 - j) := by
  have hend := group_le g hi
  have hdiv : (a + g * i + j - a) / g = i := by
    rw [Nat.add_assoc, Nat.add_sub_cancel_left, Nat.mul_add_div (by omega), Nat.div_eq_of_lt hj,
      Nat.add_zero]
  rw [mirrorGroups, if_pos (by omega), hdiv, mirror_add hj]

/-- A place is one of a segment, or outside. -/
theorem groups_cases (hg : 0 < g) (a n x : Nat) :
    (∃ i j, i < n ∧ j < g ∧ x = a + g * i + j) ∨ x < a ∨ a + g * n ≤ x := by
  by_cases h : a ≤ x ∧ x < a + g * n
  · refine Or.inl ⟨(x - a) / g, (x - a) % g, Nat.div_lt_of_lt_mul (by omega), Nat.mod_lt _ hg, ?_⟩
    rw [Nat.add_assoc, Nat.div_add_mod]
    omega
  · exact Or.inr (by omega)

/-- One segment more. -/
theorem mirrorGroups_succ (hg : 0 < g) (a n : Nat) :
    mirrorGroups a g (n + 1) = mirrorGroups a g n ∘ mirror (a + g * n) g := by
  funext x
  rw [Function.comp_apply]
  rcases groups_cases hg a (n + 1) x with ⟨i, j, hi, hj, rfl⟩ | h
  · rw [mirrorGroups_add hi hj]
    rcases Nat.lt_succ_iff_lt_or_eq.1 hi with hi | rfl
    · have hend := group_le g hi
      rw [mirror_of_outside (by omega), mirrorGroups_add hi hj]
    · rw [mirror_add hj, mirrorGroups_of_outside (by omega)]
  · have hend : g * (n + 1) = g * n + g := Nat.mul_succ g n
    rw [mirrorGroups_of_outside h, mirror_of_outside (by omega),
      mirrorGroups_of_outside (by omega)]

/-- **Reversing the segments undoes itself.** -/
theorem mirrorGroups_involutive (hg : 0 < g) (a n : Nat) :
    Function.Involutive (mirrorGroups a g n) := by
  intro x
  rcases groups_cases hg a n x with ⟨i, j, hi, hj, rfl⟩ | h
  · rw [mirrorGroups_add hi hj, mirrorGroups_add hi (by omega)]
    omega
  · rw [mirrorGroups_of_outside h, mirrorGroups_of_outside h]

end Zedboard
