import Mathlib.Tactic.Abel
import Zedboard.Ed25519.Table
import Zedboard.Ed25519.Windows

/-!
# Scalar multiplication

`ge25519_scalarmult_base` adds up one entry of the table for every signed digit, and
`ge25519_double_scalarmult_vartime` goes from the most significant pair of digits down, with two
doublings in every round.  Both denote the multiples in the group of the curve.
-/

set_option autoImplicit false

namespace Zedboard
namespace Ge25519

open Fe25519 EdwardsCurve

/-! ## Multiples of the base point -/

theorem denotes_affine {q : Ge25519Aff} {P : curve.Point} (h : DenotesAff q P) :
    Denotes ⟨q.x, q.y, setone, mul q.x q.y⟩ P :=
  ⟨P.x, P.y, 1, P.x * P.y, h.x, h.y, represents_setone, h.x.mul h.y, extended_affine P⟩

/-- The digit at a place, and the value of the digits up to it. -/
theorem evalDigits_take_succ {b : List Int8} {n : Nat} (hn : n < b.length) :
    evalDigits 8 ((b.map Int8.toInt).take (n + 1)) =
      evalDigits 8 ((b.map Int8.toInt).take n) + (b.getD n 0).toInt * 8 ^ n := by
  have hn' : n < (b.map Int8.toInt).length := by rwa [List.length_map]
  have hdigit : (b.map Int8.toInt)[n] = (b.getD n 0).toInt := by
    rw [List.getElem_map, List.getD_eq_getElem?_getD, List.getElem?_eq_getElem hn, Option.getD_some]
  rw [List.take_succ_eq_append_getElem hn', evalDigits_concat, List.length_take_of_le hn'.le, hdigit]

theorem chooseT_digit {b : List Int8} (hlen : b.length = 85)
    (hb : ∀ x ∈ b.map Int8.toInt, -4 ≤ x ∧ x < 4) {n : Nat} (hn : n < 85) :
    DenotesAff (chooseT n (b.getD n 0)) (((b.getD n 0).toInt * 8 ^ n) • basePoint) := by
  have hmem : (b.getD n 0).toInt ∈ b.map Int8.toInt := by
    have hn' : n < b.length := by rwa [hlen]
    rw [List.getD_eq_getElem?_getD, List.getElem?_eq_getElem hn', Option.getD_some]
    exact List.mem_map_of_mem (List.getElem_mem hn')
  exact chooseT_spec hn (hb _ hmem).1 (hb _ hmem).2

/-- **The loop of `ge25519_scalarmult_base`**, after `n` rounds. -/
theorem baseLoop_spec {b : List Int8} (hlen : b.length = 85)
    (hb : ∀ x ∈ b.map Int8.toInt, -4 ≤ x ∧ x < 4) {r : Ge25519}
    (hr : Denotes r (evalDigits 8 ((b.map Int8.toInt).take 1) • basePoint)) : ∀ {n : Nat}, n < 85 →
      Denotes ((List.range n).foldl (fun r i => mixadd2 r (chooseT (i + 1) (b.getD (i + 1) 0))) r)
        (evalDigits 8 ((b.map Int8.toInt).take (n + 1)) • basePoint)
  | 0, _ => hr
  | n + 1, hn => by
    have ih := baseLoop_spec hlen hb hr (Nat.lt_of_succ_lt hn)
    rw [List.range_succ, List.foldl_append, List.foldl_cons, List.foldl_nil,
      evalDigits_take_succ (by omega), add_zsmul]
    exact mixadd2_spec ih (chooseT_digit hlen hb hn)

/-- **`ge25519_scalarmult_base`.** -/
theorem scalarmultBase_spec {s : Sc25519} (h : Sc25519.Bytes s.v)
    (hlt : Sc25519.value s < 2 ^ 253) :
    Denotes (scalarmultBase s) (Sc25519.value s • basePoint) := by
  obtain ⟨hlen, heval, hb⟩ := Sc25519.window3_small h hlt
  have hlen' : (Sc25519.window3 s).length = 85 := by rwa [List.length_map] at hlen
  have hfirst := denotes_affine (chooseT_digit hlen' hb (show 0 < 85 by decide))
  have hstart : ((Sc25519.window3 s).getD 0 0).toInt * 8 ^ 0 =
      evalDigits 8 (((Sc25519.window3 s).map Int8.toInt).take 1) := by
    rw [evalDigits_take_succ (by omega), List.take_zero, evalDigits_nil, zero_add]
  rw [hstart] at hfirst
  have hloop := baseLoop_spec hlen' hb hfirst (show 84 < 85 by decide)
  rw [List.take_of_length_le hlen.le, heval, natCast_zsmul] at hloop
  exact hloop

/-! ## Two scalars at once -/

section Double

variable {p1 p2 : Ge25519} {P Q : curve.Point}

theorem Denotes.sum {r s : Ge25519} (hr : Denotes r P) (hs : Denotes s Q) :
    Denotes (p1p1ToP3 (addP1p1 r s)) (P + Q) :=
  p1p1ToP3_spec (addP1p1_spec hr hs)

theorem Denotes.double {r : Ge25519} (hr : Denotes r P) :
    Denotes (p1p1ToP3 (dblP1p1 (Ge25519.toP2 r))) (P + P) :=
  p1p1ToP3_spec (dblP1p1_spec hr.toP2)

/-- The point for a pair of digits. -/
def pairPoint (P Q : curve.Point) (j : Nat) : curve.Point := (j % 4) • P + (j / 4) • Q

/-- **The precomputed points.** -/
theorem precomputed_spec (h1 : Denotes p1 P) (h2 : Denotes p2 Q) : ∀ j < 16,
    Denotes ((precomputed p1 p2).getD j setneutral) (pairPoint P Q j) := by
  have hpoint : ∀ {r : Ge25519} {R : curve.Point} (j : Nat), Denotes r R →
      R = (j % 4) • P + (j / 4) • Q → Denotes r (pairPoint P Q j) := by
    intro r R j h heq
    rwa [pairPoint, ← heq]
  have hpre2 := h1.double
  have hpre3 := h1.sum hpre2
  have hpre5 := h1.sum h2
  have hpre8 := h2.double
  have hpre12 := h2.sum hpre8
  have hlist : precomputed p1 p2 = [setneutral, p1, _, _, p2, _, _, _, _, _, _, _, _, _, _, _] := rfl
  intro j hj
  rw [hlist]
  match j, hj with
  | 0, _ => exact hpoint 0 setneutral_spec (by simp)
  | 1, _ => exact hpoint 1 h1 (by simp)
  | 2, _ => exact hpoint 2 hpre2 (by simp [two_nsmul])
  | 3, _ => exact hpoint 3 hpre3 (by norm_num; abel)
  | 4, _ => exact hpoint 4 h2 (by simp)
  | 5, _ => exact hpoint 5 hpre5 (by simp)
  | 6, _ => exact hpoint 6 (hpre2.sum h2) (by norm_num; abel)
  | 7, _ => exact hpoint 7 (hpre3.sum h2) (by norm_num; abel)
  | 8, _ => exact hpoint 8 hpre8 (by simp [two_nsmul])
  | 9, _ => exact hpoint 9 (h1.sum hpre8) (by norm_num; abel)
  | 10, _ => exact hpoint 10 hpre5.double (by norm_num; abel)
  | 11, _ => exact hpoint 11 (hpre3.sum hpre8) (by norm_num; abel)
  | 12, _ => exact hpoint 12 hpre12 (by norm_num; abel)
  | 13, _ => exact hpoint 13 (h1.sum hpre12) (by norm_num; abel)
  | 14, _ => exact hpoint 14 (hpre2.sum hpre12) (by norm_num; abel)
  | 15, _ => exact hpoint 15 (hpre3.sum hpre12) (by norm_num; abel)
  | k + 16, h => exact absurd h (by omega)

/-- The point of the pairs of digits from the place `n` on. -/
def upperPoint (P Q : curve.Point) (b : List UInt8) (n : Nat) : curve.Point :=
  Nat.ofDigits 4 ((b.drop n).map fun x => x.toNat % 4) • P +
    Nat.ofDigits 4 ((b.drop n).map fun x => x.toNat / 4) • Q

theorem upperPoint_eq {b : List UInt8} {n : Nat} (hn : n < b.length) :
    upperPoint P Q b n = 2 • (2 • upperPoint P Q b (n + 1)) + pairPoint P Q (b.getD n 0).toNat := by
  have hget : b.getD n 0 = b[n] := by
    rw [List.getD_eq_getElem?_getD, List.getElem?_eq_getElem hn, Option.getD_some]
  rw [upperPoint, upperPoint, pairPoint, hget, List.drop_eq_getElem_cons hn, List.map_cons,
    List.map_cons, Nat.ofDigits_cons, Nat.ofDigits_cons, add_nsmul, add_nsmul, mul_nsmul',
    mul_nsmul']
  abel

/-- **One round** of `ge25519_double_scalarmult_vartime`. -/
theorem doubleRound_spec (h1 : Denotes p1 P) (h2 : Denotes p2 Q) {b : List UInt8}
    (hb : ∀ x ∈ b, x.toNat < 16) {r : Ge25519} {n : Nat} (hn : n < b.length)
    (hr : DenotesP2 (toP2 r) (upperPoint P Q b (n + 1))) :
    DenotesP2 (toP2 (doubleRound (precomputed p1 p2) b r n)) (upperPoint P Q b n) ∧
      (n = 0 → Denotes (doubleRound (precomputed p1 p2) b r n) (upperPoint P Q b n)) := by
  have hlt : (b.getD n 0).toNat < 16 := by
    rw [List.getD_eq_getElem?_getD, List.getElem?_eq_getElem hn, Option.getD_some]
    exact hb _ (List.getElem_mem hn)
  have hdouble := dblP1p1_spec (p1p1ToP2_spec (dblP1p1_spec hr))
  rw [← two_nsmul, ← two_nsmul] at hdouble
  -- what the round leaves, from the sum in completed coordinates
  have hend : ∀ {s : Ge25519} {t : Ge25519P1p1}, DenotesP1p1 t (upperPoint P Q b n) →
      DenotesP2 (toP2 (if n ≠ 0 then setP2 s (p1p1ToP2 t) else p1p1ToP3 t)) (upperPoint P Q b n) ∧
        (n = 0 → Denotes (if n ≠ 0 then setP2 s (p1p1ToP2 t) else p1p1ToP3 t)
          (upperPoint P Q b n)) := by
    intro s t ht
    by_cases hzero : n = 0
    · rw [if_neg (not_not.2 hzero)]
      exact ⟨(p1p1ToP3_spec ht).toP2, fun _ => p1p1ToP3_spec ht⟩
    · rw [if_pos hzero, toP2_setP2]
      exact ⟨p1p1ToP2_spec ht, fun h => absurd h hzero⟩
  rw [doubleRound]
  by_cases hdigit : b.getD n 0 ≠ 0
  · simp only [if_pos hdigit]
    refine hend ?_
    rw [upperPoint_eq hn]
    exact addP1p1_spec (p1p1ToP3_spec hdouble) (precomputed_spec h1 h2 _ hlt)
  · simp only [if_neg hdigit]
    refine hend ?_
    have hzero : pairPoint P Q (0 : UInt8).toNat = 0 := by simp [pairPoint]
    rw [upperPoint_eq hn, not_not.1 hdigit, hzero, add_zero]
    exact hdouble

/-- **All rounds.** -/
theorem doubleLoop_spec (h1 : Denotes p1 P) (h2 : Denotes p2 Q) {b : List UInt8}
    (hb : ∀ x ∈ b, x.toNat < 16) : ∀ {n : Nat} {r : Ge25519}, n < b.length →
      DenotesP2 (toP2 r) (upperPoint P Q b (n + 1)) →
        Denotes ((List.range (n + 1)).reverse.foldl (doubleRound (precomputed p1 p2) b) r)
          (upperPoint P Q b 0)
  | 0, r, hn, hr => (doubleRound_spec h1 h2 hb hn hr).2 rfl
  | n + 1, r, hn, hr => by
    rw [List.range_succ, List.reverse_append, List.reverse_singleton, List.singleton_append,
      List.foldl_cons]
    exact doubleLoop_spec h1 h2 hb (Nat.lt_of_succ_lt hn) (doubleRound_spec h1 h2 hb hn hr).1

/-- **`ge25519_double_scalarmult_vartime` computes the sum of two multiples**, of all points. -/
theorem double_scalarmult (h1 : Denotes p1 P) (h2 : Denotes p2 Q) {s1 s2 : Sc25519}
    (hs1 : Sc25519.Reduced s1) (hs2 : Sc25519.Reduced s2) :
    Denotes (doubleScalarmultVartime p1 s1 p2 s2)
      (Sc25519.value s1 • P + Sc25519.value s2 • Q) := by
  obtain ⟨hlen, hlt, -⟩ := Sc25519.interleave2_digits hs1.bytes hs2.bytes
  obtain ⟨hlow, hhigh⟩ := Sc25519.interleave2_value hs1 hs2
  rw [List.map_map] at hlow hhigh
  rw [List.length_map] at hlen
  have hb : ∀ x ∈ Sc25519.interleave2 s1 s2, x.toNat < 16 := fun x hx =>
    hlt _ (List.mem_map_of_mem hx)
  have hlast : (126 : Nat) < (Sc25519.interleave2 s1 s2).length := by omega
  have hfirst : Denotes ((precomputed p1 p2).getD ((Sc25519.interleave2 s1 s2).getD 126 0).toNat
      setneutral) (upperPoint P Q (Sc25519.interleave2 s1 s2) 126) := by
    have hmem : ((Sc25519.interleave2 s1 s2).getD 126 0).toNat < 16 := by
      rw [List.getD_eq_getElem?_getD, List.getElem?_eq_getElem hlast, Option.getD_some]
      exact hb _ (List.getElem_mem hlast)
    have htop : upperPoint P Q (Sc25519.interleave2 s1 s2) 127 = 0 := by
      rw [upperPoint, List.drop_of_length_le hlen.le]
      simp
    rw [upperPoint_eq hlast, htop, nsmul_zero, nsmul_zero, zero_add]
    exact precomputed_spec h1 h2 _ hmem
  have hloop := doubleLoop_spec h1 h2 hb (n := 125) (by omega) hfirst.toP2
  have hvalue : upperPoint P Q (Sc25519.interleave2 s1 s2) 0 =
      Sc25519.value s1 • P + Sc25519.value s2 • Q := by
    rw [upperPoint, List.drop_zero, ← hlow, ← hhigh]
    rfl
  rw [← hvalue]
  exact hloop

end Double

theorem double_scalarmult_base :
    Denotes (doubleScalarmultVartime base Sc25519.largestScalar base Sc25519.risingScalar)
      (Sc25519.value Sc25519.largestScalar • basePoint +
        Sc25519.value Sc25519.risingScalar • basePoint) :=
  double_scalarmult base_spec base_spec Sc25519.reduced_largestScalar Sc25519.reduced_risingScalar

end Ge25519
end Zedboard
