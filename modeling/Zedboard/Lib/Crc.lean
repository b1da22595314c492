import Mathlib.Algebra.Field.ZMod
import Mathlib.Algebra.Polynomial.Div
import Mathlib.Algebra.Polynomial.OfFn
import Mathlib.Data.BitVec
import Mathlib.Tactic.LinearCombination

/-!
# Cyclic redundancy checks

A word of `n` bits is a polynomial over the field of two elements: bit `k` is the coefficient of
`X ^ k`.  The generator of a check is `X ^ n` and the polynomial of a word `p`, and the shift
register divides by it: one shift is a multiplication by `X`, up to multiples of the generator
(`wordPoly_crcShift`).

`crcByte` takes in a byte, the most significant bit first, and after a whole message the register
holds the remainder of the message times `X ^ n` (`wordPoly_foldl_crcByte`).
-/

set_option autoImplicit false

namespace Zedboard

open Polynomial

variable {n : Nat}

/-! ## Words as polynomials -/

/-- The polynomial with the bits of a word as its coefficients. -/
noncomputable def wordPoly (x : BitVec n) : (ZMod 2)[X] :=
  ofFn n fun i : Fin n => if x.getLsbD i then 1 else 0

theorem coeff_wordPoly (x : BitVec n) (k : Nat) :
    (wordPoly x).coeff k = if x.getLsbD k then 1 else 0 := by
  rcases Nat.lt_or_ge k n with hk | hk
  · rw [wordPoly, ofFn_coeff_eq_val_of_lt _ hk]
  · rw [wordPoly, ofFn_coeff_eq_zero_of_ge _ hk, BitVec.getLsbD_of_ge x k hk]
    rfl

theorem degree_wordPoly_lt (x : BitVec n) : (wordPoly x).degree < n := ofFn_degree_lt _

/-- A word is determined by its polynomial. -/
theorem wordPoly_injective : Function.Injective (wordPoly (n := n)) := by
  intro x y h
  refine BitVec.eq_of_getLsbD_eq fun k _ => ?_
  have hk := congrArg (coeff · k) h
  simp only [coeff_wordPoly] at hk
  cases hx : x.getLsbD k <;> cases hy : y.getLsbD k <;> simp_all

@[simp] theorem wordPoly_zero : wordPoly 0#n = 0 := by
  ext k
  simp [coeff_wordPoly]

/-- Exclusive or is addition. -/
theorem wordPoly_xor (x y : BitVec n) : wordPoly (x ^^^ y) = wordPoly x + wordPoly y := by
  ext k
  rw [coeff_add, coeff_wordPoly, coeff_wordPoly, coeff_wordPoly, BitVec.getLsbD_xor]
  cases x.getLsbD k <;> cases y.getLsbD k <;> decide

/-- A shift is a multiplication by `X`, less the bit that is shifted out. -/
theorem wordPoly_shiftLeft_one (x : BitVec n) :
    wordPoly (x <<< 1) = wordPoly x * X - if x.msb then X ^ n else 0 := by
  ext k
  have hout : (if x.msb then X ^ n else (0 : (ZMod 2)[X])).coeff k =
      if x.msb ∧ k = n then 1 else 0 := by
    by_cases hmsb : x.msb <;> simp [hmsb, coeff_X_pow]
  rw [coeff_sub, hout, coeff_wordPoly, BitVec.getLsbD_shiftLeft]
  rcases k with - | k
  · -- nothing comes in at the bottom
    have hempty : ¬(x.msb ∧ 0 = n) := by
      rintro ⟨hmsb, rfl⟩
      rw [BitVec.msb_eq_getLsbD_last] at hmsb
      exact absurd (BitVec.lt_of_getLsbD hmsb) (Nat.not_lt_zero _)
    rw [if_neg hempty, coeff_mul_X_zero]
    simp
  · rw [coeff_mul_X, coeff_wordPoly]
    rcases Nat.lt_trichotomy (k + 1) n with hk | hk | hk
    · have hinside : ¬(x.msb ∧ k + 1 = n) := fun h => absurd h.2 (Nat.ne_of_lt hk)
      rw [if_neg hinside]
      simp [hk]
    · -- the bit that is shifted out
      subst hk
      have hmsb : x.msb = x.getLsbD k := BitVec.msb_eq_getLsbD_last x
      rw [hmsb]
      cases x.getLsbD k <;> simp
    · have hbeyond : ¬(x.msb ∧ k + 1 = n) := fun h => absurd h.2 (Nat.ne_of_gt hk)
      rw [if_neg hbeyond, BitVec.getLsbD_of_ge x k (by omega)]
      simp [Nat.lt_asymm hk]

/-- A word moved up inside a longer one. -/
theorem wordPoly_setWidth_shiftLeft {m j : Nat} (x : BitVec m) (h : m + j ≤ n) :
    wordPoly (x.setWidth n <<< j) = wordPoly x * X ^ j := by
  ext k
  rw [coeff_mul_X_pow', coeff_wordPoly, coeff_wordPoly, BitVec.getLsbD_shiftLeft,
    BitVec.getLsbD_setWidth]
  by_cases hj : j ≤ k
  · rw [if_pos hj]
    by_cases hk : k < n
    · simp [hk, hj, show k - j < n by omega]
    · rw [BitVec.getLsbD_of_ge x (k - j) (by omega)]
      simp [hk]
  · rw [if_neg hj]
    simp [Nat.lt_of_not_le hj]

/-! ## The shift register -/

/-- The generator of the check with the low bits `p`. -/
noncomputable def generator (p : BitVec n) : (ZMod 2)[X] := X ^ n + wordPoly p

theorem monic_generator (p : BitVec n) : (generator p).Monic :=
  monic_X_pow_add (degree_wordPoly_lt p)

theorem degree_generator (p : BitVec n) : (generator p).degree = n := by
  have hlt := degree_wordPoly_lt p
  rw [generator, degree_add_eq_left_of_degree_lt (by rwa [degree_X_pow]), degree_X_pow]

/-- One shift of the register, with the feedback `p`. -/
def crcShift (p r : BitVec n) : BitVec n := if r.msb then (r <<< 1) ^^^ p else r <<< 1

/-- **One shift** multiplies by `X`. -/
theorem wordPoly_crcShift (p r : BitVec n) :
    wordPoly (crcShift p r) = (wordPoly r * X) %ₘ generator p := by
  have hdeg : (wordPoly (crcShift p r)).degree < (generator p).degree := by
    rw [degree_generator]
    exact degree_wordPoly_lt _
  have hsum : wordPoly (crcShift p r) + generator p * (if r.msb then 1 else 0) =
      wordPoly r * X := by
    rw [crcShift]
    by_cases hmsb : r.msb
    · rw [if_pos hmsb, if_pos hmsb, wordPoly_xor, wordPoly_shiftLeft_one, if_pos hmsb, generator]
      have htwo : wordPoly p + wordPoly p = 0 := CharTwo.add_self_eq_zero _
      linear_combination htwo
    · rw [if_neg hmsb, if_neg hmsb, wordPoly_shiftLeft_one, if_neg hmsb]
      ring
  exact (div_modByMonic_unique _ _ (monic_generator p) ⟨hsum, hdeg⟩).2.symm

/-- A product does not see multiples of the generator. -/
theorem modByMonic_mul_modByMonic {g : (ZMod 2)[X]} (hg : g.Monic) (a b : (ZMod 2)[X]) :
    ((a %ₘ g) * b) %ₘ g = (a * b) %ₘ g := by
  refine modByMonic_eq_of_dvd_sub hg ?_
  rw [← sub_mul]
  exact (dvd_modByMonic_sub a g).mul_right b

/-- **Many shifts** multiply by a power of `X`. -/
theorem wordPoly_iterate_crcShift (p r : BitVec n) (k : Nat) :
    wordPoly ((crcShift p)^[k] r) = (wordPoly r * X ^ k) %ₘ generator p := by
  induction k with
  | zero =>
    rw [pow_zero, mul_one]
    refine ((modByMonic_eq_self_iff (monic_generator p)).2 ?_).symm
    rw [degree_generator]
    exact degree_wordPoly_lt _
  | succ k ih =>
    rw [Function.iterate_succ_apply', wordPoly_crcShift, ih,
      modByMonic_mul_modByMonic (monic_generator p), pow_succ, mul_assoc]

/-! ## Messages -/

/-- The polynomial of a message, the most significant bit of its first byte first. -/
noncomputable def messagePoly (l : List (BitVec 8)) : (ZMod 2)[X] :=
  l.foldl (fun acc b => acc * X ^ 8 + wordPoly b) 0

theorem messagePoly_append (l : List (BitVec 8)) (b : BitVec 8) :
    messagePoly (l ++ [b]) = messagePoly l * X ^ 8 + wordPoly b := by
  rw [messagePoly, List.foldl_append]
  rfl

/-- Take in one byte: it goes to the top of the register, which is then shifted eight times. -/
def crcByte (p r : BitVec n) (b : BitVec 8) : BitVec n :=
  (crcShift p)^[8] (r ^^^ (b.setWidth n <<< (n - 8)))

theorem wordPoly_crcByte (hn : 8 ≤ n) (p r : BitVec n) (b : BitVec 8) :
    wordPoly (crcByte p r b) = (wordPoly r * X ^ 8 + wordPoly b * X ^ n) %ₘ generator p := by
  have hpow : (X : (ZMod 2)[X]) ^ (n - 8) * X ^ 8 = X ^ n := by
    rw [← pow_add, Nat.sub_add_cancel hn]
  rw [crcByte, wordPoly_iterate_crcShift, wordPoly_xor, wordPoly_setWidth_shiftLeft b (by omega),
    add_mul, mul_assoc, hpow]

/-- **The register holds the remainder** of what has been taken in so far, moved up by its width. -/
theorem wordPoly_foldl_crcByte (hn : 8 ≤ n) (p : BitVec n) (l : List (BitVec 8)) :
    wordPoly (l.foldl (crcByte p) 0) = (messagePoly l * X ^ n) %ₘ generator p := by
  induction l using List.reverseRecOn with
  | nil => simp [messagePoly]
  | append_singleton l b ih =>
    have hsum : (messagePoly l * X ^ 8 + wordPoly b) * X ^ n =
        messagePoly l * X ^ n * X ^ 8 + wordPoly b * X ^ n := by ring
    rw [List.foldl_append, List.foldl_cons, List.foldl_nil, wordPoly_crcByte hn, ih,
      messagePoly_append, hsum, add_modByMonic, modByMonic_mul_modByMonic (monic_generator p),
      ← add_modByMonic]

end Zedboard
