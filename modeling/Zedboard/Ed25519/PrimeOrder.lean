import Mathlib.GroupTheory.OrderOfElement
import Zedboard.Ed25519.Order
import Zedboard.Lib.Primality

/-!
# The order is prime

So the base point generates a group of `order` points, and `ge25519_scalarmult_base` tells scalars
apart.
-/

set_option autoImplicit false

namespace Zedboard

theorem prime_58964693 : Nat.Prime 58964693 :=
  prime_of_lucas (a := 2) 32 [2, 2, 14741173] (by decide) (by decide) (by norm_num) (by decide)
    (by decide) (by decide)

set_option maxRecDepth 20000 in
theorem prime_3044861653679985063343 : Nat.Prime 3044861653679985063343 :=
  prime_of_lucas (a := 5) 128 [2, 3, 11, 30703, 82163, 132667, 137849] (by decide) (by decide)
    (by norm_num) (by decide) (by decide) (by decide)

set_option maxRecDepth 20000 in
theorem prime_198211423230930754013084525763697 :
    Nat.Prime 198211423230930754013084525763697 :=
  prime_of_lucas (a := 5) 128 [58964693, 3044861653679985063343, 2, 2, 2, 2, 3, 23] (by decide)
    (by decide) (List.forall_mem_cons.2 ⟨prime_58964693,
      List.forall_mem_cons.2 ⟨prime_3044861653679985063343, by norm_num⟩⟩) (by decide)
    (by decide) (by decide)

theorem prime_292386187 : Nat.Prime 292386187 :=
  prime_of_lucas (a := 2) 32 [2, 3, 3, 3, 3, 307, 5879] (by decide) (by decide) (by norm_num)
    (by decide) (by decide) (by decide)

theorem prime_213441916511 : Nat.Prime 213441916511 :=
  prime_of_lucas (a := 13) 64 [292386187, 2, 5, 73] (by decide) (by decide)
    (List.forall_mem_cons.2 ⟨prime_292386187, by norm_num⟩) (by decide) (by decide) (by decide)

theorem prime_1257559732178653 : Nat.Prime 1257559732178653 :=
  prime_of_lucas (a := 2) 64 [2, 2, 3, 7, 23, 531581, 1224481] (by decide) (by decide)
    (by norm_num) (by decide) (by decide) (by decide)

theorem prime_4434155615661930479 : Nat.Prime 4434155615661930479 :=
  prime_of_lucas (a := 17) 64 [1257559732178653, 2, 41, 43] (by decide) (by decide)
    (List.forall_mem_cons.2 ⟨prime_1257559732178653, by norm_num⟩) (by decide) (by decide)
    (by decide)

set_option maxRecDepth 20000 in
theorem prime_172054593956031949258510691 : Nat.Prime 172054593956031949258510691 :=
  prime_of_lucas (a := 2) 128 [4434155615661930479, 2, 5, 1361, 2851] (by decide) (by decide)
    (List.forall_mem_cons.2 ⟨prime_4434155615661930479, by norm_num⟩) (by decide) (by decide)
    (by decide)

set_option maxRecDepth 20000 in
theorem prime_19757330305831588566944191468367130476339 :
    Nat.Prime 19757330305831588566944191468367130476339 :=
  prime_of_lucas (a := 2) 256 [213441916511, 172054593956031949258510691, 2, 269] (by decide)
    (by decide) (List.forall_mem_cons.2 ⟨prime_213441916511,
      List.forall_mem_cons.2 ⟨prime_172054593956031949258510691, by norm_num⟩⟩) (by decide)
    (by decide) (by decide)

set_option maxRecDepth 20000 in
theorem prime_276602624281642239937218680557139826668747 :
    Nat.Prime 276602624281642239937218680557139826668747 :=
  prime_of_lucas (a := 2) 256 [19757330305831588566944191468367130476339, 2, 7] (by decide)
    (by decide) (List.forall_mem_cons.2
      ⟨prime_19757330305831588566944191468367130476339, by norm_num⟩) (by decide) (by decide)
    (by decide)

namespace Ge25519

open EdwardsCurve Fe25519

set_option maxRecDepth 20000 in
/-- **The order is prime.** -/
theorem prime_order : Sc25519.order.Prime := by
  rw [Sc25519.order_eq]
  exact prime_of_lucas (a := 2) 256
    [198211423230930754013084525763697, 276602624281642239937218680557139826668747, 2, 2, 3, 11]
    (by decide) (by decide) (List.forall_mem_cons.2 ⟨prime_198211423230930754013084525763697,
      List.forall_mem_cons.2 ⟨prime_276602624281642239937218680557139826668747, by norm_num⟩⟩)
    (by decide) (by decide) (by decide)

theorem basePoint_ne_zero : basePoint ≠ 0 := by
  intro h
  have hy : ((ge25519BaseData.getD 1 (0, 0)).2 : ZMod p) = (1 : Nat) := by
    rw [Nat.cast_one]
    exact congrArg Point.y h
  rw [ZMod.natCast_eq_natCast_iff', p_eq] at hy
  exact absurd hy (by decide)

theorem addOrderOf_basePoint : addOrderOf basePoint = Sc25519.order := by
  have : Fact Sc25519.order.Prime := ⟨prime_order⟩
  exact addOrderOf_eq_prime order_nsmul basePoint_ne_zero

/-- Multiples of the base point are equal for congruent factors only. -/
theorem nsmul_basePoint_inj {n m : Nat} :
    n • basePoint = m • basePoint ↔ n % Sc25519.order = m % Sc25519.order := by
  rw [nsmul_eq_nsmul_iff_modEq, addOrderOf_basePoint, Nat.ModEq]

/-! ## Result -/

/-- **`ge25519_scalarmult_base` multiplies the base point.**  Of every scalar below `2 ^ 253`, reduced or
not, it gives the multiple, which is the multiple for the congruent factors and for no others; there
are as many multiples as `order` says. -/
theorem scalarmult_base {s : Sc25519} (h : Sc25519.Bytes s.v) (hlt : Sc25519.value s < 2 ^ 253) :
    (∀ n : Nat, Denotes (scalarmultBase s) (n • basePoint) ↔
        n % Sc25519.order = Sc25519.value s % Sc25519.order) ∧
      addOrderOf basePoint = Sc25519.order := by
  have hspec := scalarmultBase_spec h hlt
  refine ⟨fun n => ⟨fun hn => nsmul_basePoint_inj.1 (hn.unique hspec), fun hn => ?_⟩,
    addOrderOf_basePoint⟩
  rwa [nsmul_basePoint_inj.2 hn]

theorem scalarmult_base_largest :
    (∀ n : Nat, Denotes (scalarmultBase Sc25519.largestScalar) (n • basePoint) ↔
        n % Sc25519.order = Sc25519.value Sc25519.largestScalar % Sc25519.order) ∧
      addOrderOf basePoint = Sc25519.order :=
  scalarmult_base Sc25519.reduced_largestScalar.bytes Sc25519.reduced_largestScalar.lt_two_pow

end Ge25519
end Zedboard
