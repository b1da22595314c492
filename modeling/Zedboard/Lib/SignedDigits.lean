import Mathlib.Algebra.Order.Group.Unbundled.Int
import Mathlib.Data.Nat.Digits.Lemmas
import Mathlib.Tactic.Ring

/-!
# Signed digits

Digits in base `b` can be made smaller by taking those from `b / 2` on one `b` lower, with a carry
into the next place (`recode`).  The value stays (`evalDigits_recode`), and of all digits but the last
one the absolute value is at most `b / 2` (`recode_bounds`).
-/

set_option autoImplicit false

namespace Zedboard

/-- The value of signed digits, least significant first. -/
def evalDigits (b : Int) : List Int → Int
  | [] => 0
  | d :: ds => d + b * evalDigits b ds

@[simp] theorem evalDigits_nil (b : Int) : evalDigits b [] = 0 := rfl

@[simp] theorem evalDigits_cons (b d : Int) (ds : List Int) :
    evalDigits b (d :: ds) = d + b * evalDigits b ds := rfl

theorem evalDigits_concat (b d : Int) : ∀ ds : List Int,
    evalDigits b (ds ++ [d]) = evalDigits b ds + d * b ^ ds.length
  | [] => by simp
  | e :: ds => by
    rw [List.cons_append, evalDigits_cons, evalDigits_concat b d ds, evalDigits_cons,
      List.length_cons, pow_succ]
    ring

/-- Make the digits `d :: ds` signed, with a carry `c` to come in. -/
def recode (b : Nat) : Nat → Nat → List Nat → List Int
  | c, d, [] => [((d + c : Nat) : Int)]
  | c, d, e :: ds =>
    if 2 * (d + c) < b then ((d + c : Nat) : Int) :: recode b 0 e ds
    else (((d + c : Nat) : Int) - b) :: recode b 1 e ds

theorem length_recode (b : Nat) : ∀ (c d : Nat) (ds : List Nat),
    (recode b c d ds).length = ds.length + 1
  | _, _, [] => rfl
  | c, d, e :: ds => by
    rw [recode]
    split
    · rw [List.length_cons, length_recode b 0 e ds, List.length_cons]
    · rw [List.length_cons, length_recode b 1 e ds, List.length_cons]

/-- **Recoding keeps the value.** -/
theorem evalDigits_recode (b : Nat) : ∀ (c d : Nat) (ds : List Nat),
    evalDigits b (recode b c d ds) = ((Nat.ofDigits b (d :: ds) + c : Nat) : Int)
  | c, d, [] => by
    rw [recode, evalDigits_cons, evalDigits_nil, Nat.ofDigits_singleton, mul_zero, add_zero]
  | c, d, e :: ds => by
    rw [recode]
    split
    · rw [evalDigits_cons, evalDigits_recode b 0 e ds]
      simp only [Nat.ofDigits_cons]
      push_cast
      ring
    · rw [evalDigits_cons, evalDigits_recode b 1 e ds]
      simp only [Nat.ofDigits_cons]
      push_cast
      ring

/-- The digits are small, except for the last one, which is one of the old digits and a carry. -/
theorem recode_bounds {b : Nat} : ∀ {c d : Nat} {ds : List Nat}, c ≤ 1 → d < b →
    (∀ e ∈ ds, e < b) →
      (∀ x ∈ (recode b c d ds).dropLast, -(b : Int) ≤ 2 * x ∧ 2 * x < b) ∧
        ∃ c' ≤ 1, (recode b c d ds).getLastD 0 = (((d :: ds).getLastD 0 + c' : Nat) : Int)
  | c, d, [], hc, _, _ => ⟨fun x hx => by simp [recode] at hx, c, hc, rfl⟩
  | c, d, e :: ds, hc, hd, hds => by
    have he : e < b := hds e (by simp)
    have hrest : ∀ x ∈ ds, x < b := fun x hx => hds x (List.mem_cons_of_mem e hx)
    have hstep : ∀ {c' : Nat} {x : Int}, c' ≤ 1 → (-(b : Int) ≤ 2 * x ∧ 2 * x < b) →
        (∀ y ∈ (x :: recode b c' e ds).dropLast, -(b : Int) ≤ 2 * y ∧ 2 * y < b) ∧
          ∃ c'' ≤ 1, (x :: recode b c' e ds).getLastD 0 =
            (((d :: e :: ds).getLastD 0 + c'' : Nat) : Int) := by
      intro c' x hc' hx
      obtain ⟨ih1, c'', hc'', ih2⟩ := recode_bounds hc' he hrest
      have hne : recode b c' e ds ≠ [] := by
        rw [Ne, ← List.length_eq_zero_iff, length_recode]
        exact Nat.succ_ne_zero _
      obtain ⟨y, ys, hys⟩ := List.exists_cons_of_ne_nil hne
      rw [hys] at ih1 ih2 ⊢
      refine ⟨?_, c'', hc'', ih2⟩
      rw [List.dropLast_cons_cons]
      exact List.forall_mem_cons.2 ⟨hx, ih1⟩
    rw [recode]
    split
    · exact hstep (Nat.zero_le 1) (by omega)
    · exact hstep le_rfl (by omega)

end Zedboard
