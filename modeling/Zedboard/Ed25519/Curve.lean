import Mathlib.Tactic.NormNum.LegendreSymbol
import Zedboard.Ed25519.Canonical
import Zedboard.Ed25519.Ge25519
import Zedboard.Ed25519.Prime
import Zedboard.Lib.Edwards

/-!
# The curve and its coordinates

The curve is complete: `-1` is a square modulo `p`, with `ge25519_sqrtm1` as a root, and `ecd` is
none.  So its points are a group, and the formulas of `ge25519.c` compute in it, without an
exceptional case: `addP1p1`, `dblP1p1` and `mixadd2` on coordinates denote the addition of points.
`basePoint` is the point that `ge25519_base` denotes.
-/

set_option autoImplicit false

namespace Zedboard
namespace Ge25519

open Fe25519 EdwardsCurve

/-! ## Constants -/

/-- The coefficient `d`. -/
def d : Nat := 37095705934669439343138083508754565189542113879843219016388785533085940283555

theorem value_ecd : value ecd = d := by
  decide

theorem represents_ecd : Represents ecd d :=
  ⟨by decide, by rw [value_ecd]⟩

theorem represents_ec2d : Represents ec2d (2 * d) := by
  refine ⟨by decide, ?_⟩
  have hmod : value ec2d % p = 2 * d % p := by
    rw [p_eq]
    decide
  rw [← Nat.cast_two, ← Nat.cast_mul, ZMod.natCast_eq_natCast_iff']
  exact hmod

theorem represents_sqrtm1 : Represents sqrtm1 (value sqrtm1) :=
  ⟨by decide, rfl⟩

theorem sqrtm1_sq : (value sqrtm1 : ZMod p) * value sqrtm1 = -1 := by
  have hmod : (value sqrtm1 * value sqrtm1 + 1) % p = 0 := by
    rw [p_eq]
    decide
  rw [eq_neg_iff_add_eq_zero, ← Nat.cast_mul, ← Nat.cast_one, ← Nat.cast_add,
    ZMod.natCast_eq_zero_iff, Nat.dvd_iff_mod_eq_zero]
  exact hmod

theorem not_isSquare_d : ¬IsSquare (d : ZMod p) := by
  have hjacobi : jacobiSym (d : Int) p = -1 := by
    rw [p_eq, d]
    norm_num
  have h := ZMod.nonsquare_of_jacobiSym_eq_neg_one hjacobi
  rwa [Int.cast_natCast] at h

theorem two_ne_zero_p : (2 : ZMod p) ≠ 0 := by
  have hp := p_eq
  rw [← Nat.cast_two, Ne, ZMod.natCast_eq_zero_iff]
  intro hdvd
  have hle := Nat.le_of_dvd (by decide) hdvd
  omega

/-- The curve `-x² + y² = 1 + d x² y²`. -/
def curve : EdwardsCurve (ZMod p) where
  a := -1
  d := d
  isSquare_a := ⟨value sqrtm1, sqrtm1_sq.symm⟩
  not_isSquare_d := not_isSquare_d
  two_ne_zero := two_ne_zero_p

theorem curve_a : curve.a = -1 := rfl

theorem curve_d : curve.d = d := rfl

/-! ## Coordinates -/

/-- Extended coordinates in words. -/
def Denotes (r : Ge25519) (P : curve.Point) : Prop :=
  ∃ X Y Z T : ZMod p, Represents r.x X ∧ Represents r.y Y ∧ Represents r.z Z ∧ Represents r.t T ∧
    Extended P X Y Z T

/-- Projective coordinates in words. -/
def DenotesP2 (r : Ge25519P2) (P : curve.Point) : Prop :=
  ∃ X Y Z : ZMod p, Represents r.x X ∧ Represents r.y Y ∧ Represents r.z Z ∧ Projective P X Y Z

/-- Completed coordinates in words. -/
def DenotesP1p1 (r : Ge25519P1p1) (P : curve.Point) : Prop :=
  ∃ X Z Y T : ZMod p, Represents r.x X ∧ Represents r.z Z ∧ Represents r.y Y ∧ Represents r.t T ∧
    Completed P X Z Y T

/-- Affine coordinates in words. -/
structure DenotesAff (r : Ge25519Aff) (P : curve.Point) : Prop where
  x : Represents r.x P.x
  y : Represents r.y P.y

variable {P Q : curve.Point}

theorem Denotes.toP2 {r : Ge25519} (h : Denotes r P) : DenotesP2 (toP2 r) P := by
  obtain ⟨X, Y, Z, T, hx, hy, hz, -, h⟩ := h
  exact ⟨X, Y, Z, hx, hy, hz, h.toProjective⟩

theorem toP2_setP2 (r : Ge25519) (q : Ge25519P2) : toP2 (setP2 r q) = q := rfl

/-- `p1p1_to_p2` keeps the point. -/
theorem p1p1ToP2_spec {r : Ge25519P1p1} (h : DenotesP1p1 r P) : DenotesP2 (p1p1ToP2 r) P := by
  obtain ⟨X, Z, Y, T, hx, hz, hy, ht, h⟩ := h
  exact ⟨_, _, _, hx.mul ht, hy.mul hz, hz.mul ht, h.projective⟩

/-- `p1p1_to_p3` keeps the point. -/
theorem p1p1ToP3_spec {r : Ge25519P1p1} (h : DenotesP1p1 r P) : Denotes (p1p1ToP3 r) P := by
  obtain ⟨X, Z, Y, T, hx, hz, hy, ht, h⟩ := h
  exact ⟨_, _, _, _, hx.mul ht, hy.mul hz, hz.mul ht, hx.mul hy, h.extended⟩

/-- **`add_p1p1` adds.** -/
theorem addP1p1_spec {r s : Ge25519} (hr : Denotes r P) (hs : Denotes s Q) :
    DenotesP1p1 (addP1p1 r s) (P + Q) := by
  obtain ⟨X₁, Y₁, Z₁, T₁, hx₁, hy₁, hz₁, ht₁, h₁⟩ := hr
  obtain ⟨X₂, Y₂, Z₂, T₂, hx₂, hy₂, hz₂, ht₂, h₂⟩ := hs
  have ha := (hy₁.sub hx₁).mul (hy₂.sub hx₂)
  have hb := (hx₁.add hy₁).mul (hx₂.add hy₂)
  have hc := (ht₁.mul ht₂).mul represents_ec2d
  have hd := (hz₁.mul hz₂).add (hz₁.mul hz₂)
  exact ⟨_, _, _, _, hb.sub ha, hd.add hc, hb.add ha, hd.sub hc, h₁.add curve_a h₂⟩

/-- **`dbl_p1p1` doubles.** -/
theorem dblP1p1_spec {r : Ge25519P2} (hr : DenotesP2 r P) : DenotesP1p1 (dblP1p1 r) (P + P) := by
  obtain ⟨X, Y, Z, hx, hy, hz, h⟩ := hr
  have hxy := hx.add hy
  have hz₂ := hx.square.neg.add hy.square
  exact ⟨_, _, _, _, (hxy.square.sub hx.square).sub hy.square, hz₂, hx.square.neg.sub hy.square,
    hz₂.sub (hz.square.add hz.square), h.double curve_a⟩

/-- **`mixadd2` adds** a point in affine coordinates. -/
theorem mixadd2_spec {r : Ge25519} {q : Ge25519Aff} (hr : Denotes r P) (hq : DenotesAff q Q) :
    Denotes (mixadd2 r q) (P + Q) := by
  obtain ⟨X, Y, Z, T, hx, hy, hz, ht, h⟩ := hr
  have hqt := hq.x.mul hq.y
  have ha := (hy.sub hx).mul (hq.y.sub hq.x)
  have hb := (hy.add hx).mul (hq.y.add hq.x)
  have he := hb.sub ha
  have hh := hb.add ha
  have hc := (ht.mul hqt).mul represents_ec2d
  have hd := hz.add hz
  have hf := hd.sub hc
  have hg := hd.add hc
  exact ⟨_, _, _, _, he.mul hf, hh.mul hg, hg.mul hf, he.mul hh,
    (h.add_affine curve_a Q).extended⟩

/-- `setneutral` is the neutral element. -/
theorem setneutral_spec : Denotes setneutral 0 :=
  ⟨0, 1, 1, 0, represents_setzero, represents_setone, represents_setone, represents_setzero,
    extended_zero⟩

/-- The words of one point stand for no other. -/
theorem Denotes.unique {r : Ge25519} (h : Denotes r P) (h' : Denotes r Q) : P = Q := by
  obtain ⟨X, Y, Z, T, hx, hy, hz, -, h⟩ := h
  obtain ⟨X', Y', Z', T', hx', hy', hz', -, h'⟩ := h'
  have hX : X = X' := hx.2.symm.trans hx'.2
  have hY : Y = Y' := hy.2.symm.trans hy'.2
  have hZ : Z = Z' := hz.2.symm.trans hz'.2
  subst hX hY hZ
  refine Point.ext ?_ ?_
  · exact h.x_div.symm.trans h'.x_div
  · exact h.y_div.symm.trans h'.y_div

/-! ## The base point -/

/-- The base point. -/
def basePoint : curve.Point where
  x := ((ge25519BaseData.getD 1 (0, 0)).1 : Nat)
  y := ((ge25519BaseData.getD 1 (0, 0)).2 : Nat)
  onCurve := by
    generalize hx : (ge25519BaseData.getD 1 (0, 0)).1 = x
    generalize hy : (ge25519BaseData.getD 1 (0, 0)).2 = y
    have hmod : (y * y) % p = (1 + d * (x * x) * (y * y) + x * x) % p := by
      rw [p_eq, ← hx, ← hy]
      decide
    rw [← ZMod.natCast_eq_natCast_iff'] at hmod
    push_cast at hmod
    rw [OnCurve, curve_a, curve_d]
    linear_combination hmod

/-- The coordinates of the base point in words. -/
theorem baseAffine_spec : DenotesAff ⟨base.x, base.y⟩ basePoint := by
  have hx : value base.x = (ge25519BaseData.getD 1 (0, 0)).1 := by decide
  have hy : value base.y = (ge25519BaseData.getD 1 (0, 0)).2 := by decide
  exact ⟨⟨by decide, congrArg Nat.cast hx⟩, ⟨by decide, congrArg Nat.cast hy⟩⟩

theorem base_spec : Denotes base basePoint := by
  obtain ⟨hx, hy⟩ := baseAffine_spec
  have ht : value base.t % p = value base.x * value base.y % p := by
    rw [p_eq]
    decide
  rw [← ZMod.natCast_eq_natCast_iff', Nat.cast_mul, hx.cast, hy.cast] at ht
  exact ⟨_, _, _, _, hx, hy, represents_setone, ⟨by decide, ht⟩, extended_affine basePoint⟩

/-! ## Result -/

/-- **Arithmetic on the curve.**  The sums, the doubling and the conversions denote the operations
of the group of points, at all points, equal, opposite and neutral ones included, and words that
denote a point denote just one. -/
theorem curve_arithmetic {R : curve.Point} {r s : Ge25519} {q : Ge25519Aff} (hr : Denotes r P)
    (hs : Denotes s Q) (hq : DenotesAff q R) :
    DenotesP1p1 (addP1p1 r s) (P + Q) ∧ DenotesP2 (toP2 r) P ∧
      (∀ t S, DenotesP2 t S → DenotesP1p1 (dblP1p1 t) (S + S)) ∧
      Denotes (mixadd2 r q) (P + R) ∧
      (∀ t S, DenotesP1p1 t S → DenotesP2 (p1p1ToP2 t) S ∧ Denotes (p1p1ToP3 t) S) ∧
      ∀ S, Denotes r S ↔ S = P :=
  ⟨addP1p1_spec hr hs, hr.toP2, fun _ _ ht => dblP1p1_spec ht, mixadd2_spec hr hq,
    fun _ _ ht => ⟨p1p1ToP2_spec ht, p1p1ToP3_spec ht⟩,
    fun _ => ⟨fun h => h.unique hr, fun h => h ▸ hr⟩⟩

theorem curve_arithmetic_base :
    DenotesP1p1 (addP1p1 base base) (basePoint + basePoint) ∧ DenotesP2 (toP2 base) basePoint ∧
      (∀ t S, DenotesP2 t S → DenotesP1p1 (dblP1p1 t) (S + S)) ∧
      Denotes (mixadd2 base ⟨base.x, base.y⟩) (basePoint + basePoint) ∧
      (∀ t S, DenotesP1p1 t S → DenotesP2 (p1p1ToP2 t) S ∧ Denotes (p1p1ToP3 t) S) ∧
      ∀ S, Denotes base S ↔ S = basePoint :=
  curve_arithmetic base_spec base_spec baseAffine_spec

end Ge25519
end Zedboard
