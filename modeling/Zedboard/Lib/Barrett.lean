import Mathlib.Tactic.Ring

/-!
# Reduction without division

Barrett's method estimates a quotient from the high part of a number and a precomputed inverse of
the modulus.  The estimate is never too large and at most two too small (`barrett_quotient`), even
if the lowest part of the product is not computed, and so two conditional subtractions give the
remainder (`condSub_condSub`).
-/

set_option autoImplicit false

namespace Zedboard

/-- **The estimate.**  The number is `h * B + l`, the inverse `mu` of the modulus `m` is exact but
for `c`, and the estimate `q` is exact but for `e`. -/
theorem barrett_quotient {m mu B R h l q c e : Nat} (hl : l < B) (hh : h < R)
    (hmu : mu * m + c = B * R) (hc : c + B ≤ m) (hq : mu * h = R * q + e) (he : e < 2 * R) :
    q * m ≤ h * B + l ∧ h * B + l < (q + 3) * m := by
  have hR : 0 < R := Nat.zero_lt_of_lt hh
  have hm : 0 < m := by omega
  have hexact : R * (q * m) + e * m + c * h = R * (h * B) := by
    calc R * (q * m) + e * m + c * h = (R * q + e) * m + c * h := by ring
      _ = (mu * m + c) * h := by rw [← hq]; ring
      _ = R * (h * B) := by rw [hmu]; ring
  constructor
  · have hle : R * (q * m) ≤ R * (h * B) := by omega
    exact (Nat.le_of_mul_le_mul_left hle hR).trans (Nat.le_add_right _ _)
  · have hem : e * m < R * (2 * m) := by
      calc e * m < 2 * R * m := Nat.mul_lt_mul_of_pos_right he hm
        _ = R * (2 * m) := by ring
    have hch : c * h ≤ R * c := by
      rw [Nat.mul_comm R]
      exact Nat.mul_le_mul_left c (Nat.le_of_lt hh)
    have hlt : R * (h * B) < R * (q * m + 2 * m + c) := by
      rw [Nat.mul_add, Nat.mul_add]
      omega
    have hhigh := Nat.lt_of_mul_lt_mul_left hlt
    calc h * B + l < q * m + 2 * m + c + B := by omega
      _ ≤ q * m + 2 * m + m := by omega
      _ = (q + 3) * m := by ring

/-- Subtract the modulus if it can be subtracted. -/
def condSub (m x : Nat) : Nat := if m ≤ x then x - m else x

theorem condSub_of_lt {m x : Nat} (h : x < 2 * m) : condSub m x = x % m := by
  rw [condSub]
  split
  · rename_i hle
    rw [Nat.mod_eq_sub_mod hle, Nat.mod_eq_of_lt (by omega)]
  · rw [Nat.mod_eq_of_lt (by omega)]

/-- **Two subtractions** reduce a number that is less than three times the modulus. -/
theorem condSub_condSub {m x : Nat} (h : x < 3 * m) : condSub m (condSub m x) = x % m := by
  rcases Nat.lt_or_ge x (2 * m) with hx | hx
  · have hm : x % m < m := Nat.mod_lt _ (by omega)
    rw [condSub_of_lt hx, condSub, if_neg (Nat.not_le.2 hm)]
  · have hle : m ≤ x := by omega
    rw [show condSub m x = x - m from if_pos hle, condSub_of_lt (by omega),
      Nat.mod_eq_sub_mod hle]

end Zedboard
