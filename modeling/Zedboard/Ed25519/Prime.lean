import Mathlib.FieldTheory.Finite.Basic
import Zedboard.Ed25519.Field
import Zedboard.Lib.Primality

/-!
# The modulus is prime

The residues are a field, and `fe25519_invert` inverts.
-/

set_option autoImplicit false

namespace Zedboard

theorem prime_2773320623 : Nat.Prime 2773320623 :=
  prime_of_lucas (a := 5) 32 [2, 2437, 569003] (by decide) (by decide)
    (by norm_num) (by decide) (by decide) (by decide)

theorem prime_72106336199 : Nat.Prime 72106336199 :=
  prime_of_lucas (a := 7) 40 [2773320623, 2, 13] (by decide) (by decide)
    (List.forall_mem_cons.2 ⟨prime_2773320623, by norm_num⟩) (by decide) (by decide)
    (by decide)

theorem prime_1919519569386763 : Nat.Prime 1919519569386763 :=
  prime_of_lucas (a := 2) 64 [2, 3, 7, 19, 47, 47, 127, 8574133] (by decide)
    (by decide) (by norm_num) (by decide) (by decide) (by decide)

theorem prime_31757755568855353 : Nat.Prime 31757755568855353 :=
  prime_of_lucas (a := 10) 64 [2, 2, 2, 3, 31, 107, 223, 4153, 430751] (by decide)
    (by decide) (by norm_num) (by decide) (by decide) (by decide)

set_option maxRecDepth 20000 in
theorem prime_75445702479781427272750846543864801 :
    Nat.Prime 75445702479781427272750846543864801 :=
  prime_of_lucas (a := 7) 128
    [72106336199, 1919519569386763, 2, 2, 2, 2, 2, 3, 3, 5, 5, 75707] (by decide)
    (by decide) (List.forall_mem_cons.2 ⟨prime_72106336199,
      List.forall_mem_cons.2 ⟨prime_1919519569386763, by norm_num⟩⟩) (by decide)
    (by decide) (by decide)

set_option maxRecDepth 20000 in
/-- The large factor of the order of the multiplicative group. -/
theorem prime_factor :
    Nat.Prime 74058212732561358302231226437062788676166966415465897661863160754340907 :=
  prime_of_lucas (a := 2) 256
    [31757755568855353, 75445702479781427272750846543864801, 2, 3, 353, 57467, 132049,
      1923133] (by decide) (by decide)
    (List.forall_mem_cons.2 ⟨prime_31757755568855353,
      List.forall_mem_cons.2 ⟨prime_75445702479781427272750846543864801, by norm_num⟩⟩)
    (by decide) (by decide) (by decide)

namespace Fe25519

set_option maxRecDepth 20000 in
/-- **The modulus is prime.** -/
theorem prime_p : p.Prime := by
  rw [p_eq]
  exact prime_of_lucas (a := 2) 256
    [74058212732561358302231226437062788676166966415465897661863160754340907, 2, 2, 3,
      65147] (by decide) (by decide)
    (List.forall_mem_cons.2 ⟨prime_factor, by norm_num⟩) (by decide)
    (by decide) (by decide)

instance : Fact p.Prime := ⟨prime_p⟩

/-- **`fe25519_invert`** inverts, and turns zero into zero. -/
theorem Represents.inv {x : Fe25519} {a : ZMod p} (hx : Represents x a) :
    Represents (Fe25519.invert x) a⁻¹ := by
  have hpow : a ^ (2 ^ 255 - 21) = a⁻¹ := by
    have hexp : 2 ^ 255 - 21 = p - 2 := by
      rw [p_eq]
      decide
    rw [hexp]
    by_cases ha : a = 0
    · have hne : p - 2 ≠ 0 := by
        rw [← hexp]
        decide
      rw [ha, zero_pow hne, inv_zero]
    · have hone : a ^ (p - 2) * a = 1 := by
        rw [← pow_succ, show p - 2 + 1 = p - 1 by have := prime_p.two_le; omega,
          ZMod.pow_card_sub_one_eq_one ha]
      exact eq_inv_of_mul_eq_one_left hone
  rw [← hpow]
  exact hx.invert

/-- **Field arithmetic.**  On all words that stand for residues, and so in any order, the operations
leave such words again, and no word overflows on the way: sums, differences and negatives in
canonical reach, products at most `mulSlack` above it.  They compute in the field of `p` elements;
`invert` is the inverse (of zero, zero) and `pow2523` the power that square roots are made from. -/
theorem field_arithmetic {x y : Fe25519} {a b : ZMod p} (hx : Represents x a)
    (hy : Represents y b) :
    (∀ u w : Fe25519, Loose u → Loose w → Exact u w) ∧
      (Represents (add x y) (a + b) ∧ Tight (add x y)) ∧
      (Represents (sub x y) (a - b) ∧ Tight (sub x y)) ∧
      (Represents (neg x) (-a) ∧ Tight (neg x)) ∧
      (Represents (mul x y) (a * b) ∧ value (mul x y) < 2 ^ 255 + mulSlack) ∧
      Represents (square x) (a ^ 2) ∧ Represents (invert x) a⁻¹ ∧
      Represents (pow2523 x) (a ^ (2 ^ 252 - 3)) := by
  refine ⟨fun _ _ hu hw => exact_of_loose hu hw,
    ⟨hx.add hy, (add_spec hx.loose hy.loose).1⟩, ⟨hx.sub hy, (sub_spec hx.loose hy.loose).1⟩,
    ⟨hx.neg, neg_tight hx.loose⟩, ⟨hx.mul hy, (mul_spec hx.loose hy.loose).2.2⟩, ?_, hx.inv,
    hx.pow2523⟩
  rw [sq]
  exact hx.square

/-- The largest words there are between two operations. -/
def fullWords : Fe25519 := ⟨List.replicate 31 255 ++ [128], by decide⟩

/-- The words of some number, no two of them the same. -/
def risingWords : Fe25519 := ⟨(List.range 32).map UInt32.ofNat, by decide⟩

theorem field_arithmetic_full :
    (∀ u w : Fe25519, Loose u → Loose w → Exact u w) ∧
      (Represents (add fullWords risingWords) (value fullWords + value risingWords) ∧
        Tight (add fullWords risingWords)) ∧
      (Represents (sub fullWords risingWords) (value fullWords - value risingWords) ∧
        Tight (sub fullWords risingWords)) ∧
      (Represents (neg fullWords) (-value fullWords) ∧ Tight (neg fullWords)) ∧
      (Represents (mul fullWords risingWords) (value fullWords * value risingWords) ∧
        value (mul fullWords risingWords) < 2 ^ 255 + mulSlack) ∧
      Represents (square fullWords) (value fullWords ^ 2) ∧
      Represents (invert fullWords) (value fullWords : ZMod p)⁻¹ ∧
      Represents (pow2523 fullWords) (value fullWords ^ (2 ^ 252 - 3)) :=
  field_arithmetic ⟨by decide, rfl⟩ ⟨by decide, rfl⟩

end Fe25519
end Zedboard
