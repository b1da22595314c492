import Zedboard.Ed25519.Scalar
import Zedboard.Ed25519.Scalarmult

/-!
# The order of the base point

Sums in extended coordinates on numbers, for the kernel to evaluate: `[order]B` is the neutral
element.  So multiples of the base point depend on the scalar modulo `order` only.
-/

set_option autoImplicit false

namespace Zedboard
namespace Ge25519

open EdwardsCurve Fe25519

/-- Extended coordinates as numbers. -/
structure Quad where
  x : Nat
  y : Nat
  z : Nat
  t : Nat

/-- The difference modulo `q`. -/
def subMod (q a b : Nat) : Nat := (a + (q - b % q)) % q

/-- The sum in extended coordinates, modulo `q`. -/
def Quad.add (q : Nat) (r s : Quad) : Quad :=
  let a := subMod q r.y r.x * subMod q s.y s.x % q
  let b := (r.x + r.y) * (s.x + s.y) % q
  let c := r.t * s.t % q * (2 * d) % q
  let e := (r.z * s.z + r.z * s.z) % q
  let x := subMod q b a
  let z := (e + c) % q
  let y := (b + a) % q
  let t := subMod q e c
  ⟨x * t % q, y * z % q, z * t % q, x * y % q⟩

/-- The multiple with a factor of `k` bits, modulo `q`. -/
def Quad.mul (q : Nat) (r : Quad) : Nat → Nat → Quad
  | 0, _ => ⟨0, 1, 1, 0⟩
  | k + 1, n =>
    let h := Quad.mul q r k (n / 2)
    if n % 2 = 1 then Quad.add q (Quad.add q h h) r else Quad.add q h h

/-- The numbers are extended coordinates of the point. -/
def Quad.Of (r : Quad) (P : curve.Point) : Prop :=
  Extended P (r.x : ZMod p) (r.y : ZMod p) (r.z : ZMod p) (r.t : ZMod p)

theorem cast_subMod (a b : Nat) : ((subMod p a b : Nat) : ZMod p) = a - b := by
  have hp := p_eq
  have hle : b % p ≤ p := (Nat.mod_lt b (by omega)).le
  rw [subMod, ZMod.natCast_mod, Nat.cast_add, Nat.cast_sub hle, ZMod.natCast_self,
    ZMod.natCast_mod, zero_sub, ← sub_eq_add_neg]

theorem Quad.add_spec {r s : Quad} {P Q : curve.Point} (hr : r.Of P) (hs : s.Of Q) :
    (Quad.add p r s).Of (P + Q) := by
  have h := (Extended.add curve_a hr hs).extended
  rw [curve_d] at h
  rw [Quad.Of, Quad.add]
  simp only [ZMod.natCast_mod, Nat.cast_mul, Nat.cast_add, cast_subMod, Nat.cast_two]
  exact h

theorem Quad.mul_spec {r : Quad} {P : curve.Point} (hr : r.Of P) : ∀ {k n : Nat}, n < 2 ^ k →
    (Quad.mul p r k n).Of (n • P)
  | 0, n, hn => by
    rw [pow_zero, Nat.lt_one_iff] at hn
    rw [hn, zero_nsmul, Quad.mul, Quad.Of]
    simpa using extended_zero (C := curve)
  | k + 1, n, hn => by
    have ih := Quad.mul_spec hr (k := k) (n := n / 2) (by rw [pow_succ] at hn; omega)
    have hdouble := Quad.add_spec ih ih
    rw [← two_nsmul, ← mul_nsmul'] at hdouble
    rw [Quad.mul]
    split
    · rename_i hodd
      have hn' : n = 2 * (n / 2) + 1 := by omega
      rw [hn', succ_nsmul, ← hn']
      exact Quad.add_spec hdouble hr
    · rename_i heven
      have hn' : 2 * (n / 2) = n := by omega
      rwa [hn'] at hdouble

/-- The base point, as numbers. -/
def baseQuad : Quad :=
  let e := ge25519BaseData.getD 1 (0, 0)
  ⟨e.1, e.2, 1, e.1 * e.2⟩

theorem baseQuad_of : baseQuad.Of basePoint := by
  have h := extended_affine basePoint
  rw [Quad.Of, baseQuad]
  simp only [Nat.cast_mul, Nat.cast_one]
  exact h

theorem order_check : ∀ q ∈ [2 ^ 255 - 19],
    let r := Quad.mul q baseQuad 253 (2 ^ 252 + 27742317777372353535851937790883648493)
    r.x % q = 0 ∧ r.y % q = r.z % q := by
  decide +kernel

theorem cast_eq_of_mod {a b : Nat} (h : a % p = b % p) : (a : ZMod p) = b :=
  (ZMod.natCast_eq_natCast_iff' a b p).2 h

/-- **The order of the base point.** -/
theorem order_nsmul : Sc25519.order • basePoint = 0 := by
  have hcheck := order_check _ (List.mem_singleton.2 p_eq)
  rw [← Sc25519.order_eq] at hcheck
  obtain ⟨hx, hy⟩ := hcheck
  have hlt : Sc25519.order < 2 ^ 253 := by
    rw [Sc25519.order_eq]
    decide
  obtain ⟨hz, hpx, hpy⟩ := (Quad.mul_spec baseQuad_of hlt).toProjective
  have hx' := cast_eq_of_mod (hx.trans (Nat.zero_mod p).symm)
  rw [cast_eq_of_mod hy] at hpy
  rw [hx', Nat.cast_zero] at hpx
  refine Point.ext ?_ ?_
  · exact (mul_eq_zero.1 hpx.symm).resolve_right hz
  · exact mul_right_cancel₀ hz (hpy.symm.trans (one_mul _).symm)

/-- Multiples of the base point depend on the factor modulo `order` only. -/
theorem mod_order_nsmul (n : Nat) : (n % Sc25519.order) • basePoint = n • basePoint := by
  conv_rhs => rw [← Nat.mod_add_div n Sc25519.order]
  rw [add_nsmul, mul_nsmul, order_nsmul, nsmul_zero, add_zero]

end Ge25519
end Zedboard
