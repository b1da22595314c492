import Zedboard.Ed25519.Pack
import Zedboard.Ed25519.Scalarmult

/-!
# Points from bytes

`ge25519_unpackneg_vartime` looks for a root of `(y² - 1) / (d y² + 1)` by one power, which is a root
up to a factor `ge25519_sqrtm1`.  What it accepts is a point with the second coordinate in the bytes;
from the encoding of a point whose residues are clear it makes the opposite point.
-/

set_option autoImplicit false

namespace Zedboard
namespace Ge25519

open Fe25519 EdwardsCurve

/-! ## The root -/

/-- The power of `ge25519_unpackneg_vartime`: `num * den^3 * (num * den^7)^((p - 5) / 8)`. -/
def candidate (num den : Fe25519) : Fe25519 :=
  let den2 := square den
  let den6 := mul (square den2) den2
  let t := pow2523 (mul (mul den6 num) den)
  mul (mul (mul (mul t num) den) den) den

/-- The candidate, or the candidate times `ge25519_sqrtm1`. -/
def rootOf (num den : Fe25519) : Fe25519 :=
  let x := candidate num den
  if iseqVartime (mul (square x) den) num then x else mul x sqrtm1

theorem unpacknegVartime_eq (r : Ge25519) (b : List UInt8) :
    unpacknegVartime r b =
      let par := b.getD 31 0 >>> 7
      let y := unpack b
      let num := sub (square y) setone
      let den := Fe25519.add setone (mul (square y) ecd)
      let x := rootOf num den
      if iseqVartime (mul (square x) den) num then
        let x := if getparity x ≠ 1 - par then neg x else x
        (0, ⟨x, y, setone, mul x y⟩)
      else (-1, ⟨x, y, setone, r.t⟩) := rfl

section Root

variable {num den : Fe25519} {u v : ZMod p}

theorem candidate_spec (hu : Represents num u) (hv : Represents den v) :
    Represents (candidate num den)
      ((v * v * (v * v) * (v * v) * u * v) ^ (2 ^ 252 - 3) * u * v * v * v) :=
  (((((((hv.square.square.mul hv.square).mul hu).mul hv).pow2523.mul hu).mul hv).mul hv).mul hv)

/-- The candidate is a product, so that its size depends on its residue. -/
theorem candidate_lt {c : ZMod p} (hu : Represents num u) (hv : Represents den v)
    (hc : Represents (candidate num den) c) (hclear : Clear c) :
    value (candidate num den) < 2 ^ 255 := by
  have hpow := (((hv.square.square.mul hv.square).mul hu).mul hv).pow2523
  exact product_lt (((hpow.mul hu).mul hv).mul hv) hv hc hclear

theorem pow_order {a : ZMod p} (ha : a ≠ 0) {e : Nat} (he : 8 * e + 5 = p) : a ^ (8 * e + 4) = 1 := by
  rw [← ZMod.pow_card_sub_one_eq_one ha]
  congr 1
  omega

/-- The candidate for a root of `u / v`, if there is a root `w`. -/
theorem candidate_sq {w : ZMod p} (hv : v ≠ 0) (hw : w ^ 2 * v = u) {e : Nat}
    (he : 8 * e + 5 = p) :
    ((v * v * (v * v) * (v * v) * u * v) ^ e * u * v * v * v) ^ 2 = w ^ 2 ∨
      ((v * v * (v * v) * (v * v) * u * v) ^ e * u * v * v * v) ^ 2 = -w ^ 2 := by
  have hroot : (v * v * (v * v) * (v * v) * u * v) ^ e * u * v * v * v = w ^ (2 * e + 2) := by
    have hbase : v * v * (v * v) * (v * v) * u * v = w ^ 2 * v ^ 8 := by
      rw [← hw]
      ring
    rw [hbase, ← hw, mul_pow, ← pow_mul, ← pow_mul]
    calc w ^ (2 * e) * v ^ (8 * e) * (w ^ 2 * v) * v * v * v
        = w ^ (2 * e + 2) * v ^ (8 * e + 4) := by ring
      _ = w ^ (2 * e + 2) := by rw [pow_order hv he, mul_one]
  rw [hroot]
  by_cases hzero : w = 0
  · left
    rw [hzero, zero_pow (by omega), zero_pow (by omega)]
  · have hone : (w ^ (4 * e + 2)) ^ 2 = 1 := by
      rw [← pow_mul, ← pow_order hzero he]
      congr 1
      omega
    have hsplit : (w ^ (2 * e + 2)) ^ 2 = w ^ (4 * e + 2) * w ^ 2 := by ring
    rw [sq] at hone
    rcases mul_self_eq_one_iff.1 hone with h | h
    · left
      rw [hsplit, h, one_mul]
    · right
      rw [hsplit, h, neg_one_mul]

/-- A root that passes the test is one. -/
theorem sq_of_check {x : Fe25519} {a : ZMod p} (hu : Represents num u) (hv : Represents den v)
    (hx : Represents x a) (h : iseqVartime (mul (square x) den) num = true) : a ^ 2 * v = u := by
  have hchk := hx.square.mul hv
  have heq := ((iseqVartime_iff hchk.loose hu.loose).1 h).1
  rwa [hchk.cast, hu.cast, ← sq] at heq

/-- A root passes the test, if the residue is clear. -/
theorem check_of_sq {x : Fe25519} {a : ZMod p} (hu : Represents num u) (hv : Represents den v)
    (hnum : Tight num) (hclear : Clear u) (hx : Represents x a) (h : a ^ 2 * v = u) :
    iseqVartime (mul (square x) den) num = true := by
  have hchk := hx.square.mul hv
  rw [← sq, h] at hchk
  refine (iseqVartime_iff hchk.loose hu.loose).2 ⟨hchk.cast.trans hu.cast.symm, ?_⟩
  exact iff_of_true (product_lt hx.square hv hchk hclear) hnum.lt

theorem exists_rootOf (hu : Represents num u) (hv : Represents den v) :
    ∃ a, Represents (rootOf num den) a := by
  have hc := candidate_spec hu hv
  rw [rootOf]
  split
  · exact ⟨_, hc⟩
  · exact ⟨_, hc.mul represents_sqrtm1⟩

/-- **The root**, in words of a number that `fe25519_freeze` can reduce. -/
theorem rootOf_spec {w : ZMod p} (hu : Represents num u) (hv : Represents den v) (hnum : Tight num)
    (hv0 : v ≠ 0) (hw : w ^ 2 * v = u) (hclear : Clear u) (hclearw : Clear w)
    (hclearw' : Clear (-w)) :
    ∃ a, Represents (rootOf num den) a ∧ (a = w ∨ a = -w) ∧ value (rootOf num den) < 2 ^ 255 := by
  have hp := p_eq
  have hc := candidate_spec hu hv
  have hsq := candidate_sq (e := 2 ^ 252 - 3) hv0 hw (by omega)
  generalize (v * v * (v * v) * (v * v) * u * v) ^ (2 ^ 252 - 3) * u * v * v * v = c at hc hsq
  have hclear_of : ∀ {a : ZMod p}, a = w ∨ a = -w → Clear a := by
    intro a ha
    rcases ha with rfl | rfl
    · exact hclearw
    · exact hclearw'
  by_cases hcheck : iseqVartime (mul (square (candidate num den)) den) num = true
  · have hroot : rootOf num den = candidate num den := by rw [rootOf, if_pos hcheck]
    have hcw := mul_right_cancel₀ hv0 ((sq_of_check hu hv hc hcheck).trans hw.symm)
    have hsign := sq_eq_sq_iff_eq_or_eq_neg.1 hcw
    rw [hroot]
    exact ⟨c, hc, hsign, candidate_lt hu hv hc (hclear_of hsign)⟩
  · have hroot : rootOf num den = mul (candidate num den) sqrtm1 := by rw [rootOf, if_neg hcheck]
    have hcw : c ^ 2 = -w ^ 2 := by
      refine hsq.resolve_left fun h => hcheck (check_of_sq hu hv hnum hclear hc ?_)
      rw [h, hw]
    have hi : (c * (value sqrtm1 : ZMod p)) ^ 2 = w ^ 2 := by
      rw [mul_pow, hcw, sq (value sqrtm1 : ZMod p), sqrtm1_sq, neg_mul_neg, mul_one]
    have hsign := sq_eq_sq_iff_eq_or_eq_neg.1 hi
    have hroot' := hc.mul represents_sqrtm1
    rw [hroot]
    exact ⟨_, hroot', hsign, product_lt hc represents_sqrtm1 hroot' (hclear_of hsign)⟩

end Root

/-! ## Points -/

variable {y : Fe25519} {b : ZMod p}

theorem represents_num (hy : Represents y b) :
    Represents (sub (square y) setone) (b * b - 1) ∧ Tight (sub (square y) setone) :=
  ⟨hy.square.sub represents_setone, (sub_spec hy.square.loose represents_setone.loose).1⟩

theorem represents_den (hy : Represents y b) :
    Represents (Fe25519.add setone (mul (square y) ecd)) (1 + b * b * d) :=
  represents_setone.add (hy.square.mul represents_ecd)

/-- The equation of the curve, solved for the first coordinate. -/
theorem onCurve_iff {x y : ZMod p} :
    curve.OnCurve x y ↔ x ^ 2 * (1 + y * y * d) = y * y - 1 := by
  rw [OnCurve, curve_a, curve_d]
  constructor
  · intro h
    linear_combination -h
  · intro h
    linear_combination -h

/-- What the function leaves, with the sign still open. -/
theorem denotes_sign {x : Fe25519} {P : curve.Point} (hx : Represents x P.x) (hy : Represents y P.y)
    (c : Prop) [Decidable c] :
    Denotes ⟨if c then neg x else x, y, setone, mul (if c then neg x else x) y⟩
      (if c then -P else P) := by
  split
  · exact denotes_affine (q := ⟨neg x, y⟩) ⟨hx.neg, hy⟩
  · exact denotes_affine (q := ⟨x, y⟩) ⟨hx, hy⟩

/-- The parity of a point's encoding. -/
theorem parity_encodePoint (P : curve.Point) :
    ((1 : UInt8) - ((encodePoint P).getD 31 0 >>> 7)).toNat = 1 - P.x.val % 2 := by
  have hy := val_lt_p P.y
  have hbyte : (encodePoint P).getD 31 0 =
      UInt8.ofNat (digit 256 (P.y.val + 2 ^ 255 * (P.x.val % 2)) 31) := by
    rw [encodePoint, encode, List.getD_eq_getElem?_getD, List.getElem?_map,
      List.getElem?_range (by decide), Option.map_some, Option.getD_some]
  have hdigit : digit 256 (P.y.val + 2 ^ 255 * (P.x.val % 2)) 31 / 128 = P.x.val % 2 := by
    rw [digit]
    omega
  have hbit : ((encodePoint P).getD 31 0 >>> 7).toNat = P.x.val % 2 := by
    rw [hbyte, UInt8.toNat_shiftRight, UInt8.toNat_ofNat',
      Nat.mod_eq_of_lt (digit_lt (by decide) _ 31)]
    change digit 256 _ 31 >>> 7 = _
    rw [Nat.shiftRight_eq_div_pow]
    exact hdigit
  have hle : (encodePoint P).getD 31 0 >>> 7 ≤ 1 := by
    rw [UInt8.le_iff_toNat_le, hbit]
    exact Nat.le_of_lt_succ (Nat.mod_lt _ (by decide))
  rw [UInt8.toNat_sub_of_le _ _ hle, hbit]
  rfl

/-- The right one of the two roots. -/
theorem sign_eq {a w : ZMod p} (ha : a = w ∨ a = -w) :
    (if a.val % 2 ≠ 1 - w.val % 2 then -a else a) = -w := by
  by_cases hw : w = 0
  · have ha0 : a = 0 := by simpa [hw] using ha
    rw [ha0, hw, neg_zero, ite_self]
  · have hparity := parity_neg hw
    rcases ha with rfl | rfl
    · rw [if_pos (by omega)]
    · rw [if_neg (by omega)]

theorem represents_unpack {b : List UInt8} (hb : b.length = 32) :
    Represents (unpack b) (Nat.ofDigits 256 (b.map UInt8.toNat) % 2 ^ 255 : Nat) := by
  obtain ⟨htight, hvalue⟩ := unpack_spec hb
  exact ⟨htight.loose, by rw [hvalue]⟩

theorem represents_encodePoint (P : curve.Point) : Represents (unpack (encodePoint P)) P.y := by
  have hPy := val_lt_p P.y
  have hnumber : Nat.ofDigits 256 ((encodePoint P).map UInt8.toNat) % 2 ^ 255 = P.y.val := by
    rw [encodePoint, ofDigits_encode (by omega)]
    omega
  have h := represents_unpack (b := encodePoint P) (by simp [encodePoint, encode])
  rwa [hnumber, ZMod.natCast_zmod_val] at h

/-- What `ge25519_unpackneg_vartime` accepts is a point with the second coordinate in the bytes. -/
theorem unpackneg_sound (r : Ge25519) {b : List UInt8} (hb : b.length = 32)
    (h : (unpacknegVartime r b).1 = 0) :
    ∃ Q : curve.Point, Denotes (unpacknegVartime r b).2 Q ∧
      Q.y = (Nat.ofDigits 256 (b.map UInt8.toNat) % 2 ^ 255 : Nat) := by
  have hy := represents_unpack hb
  generalize ((Nat.ofDigits 256 (b.map UInt8.toNat) % 2 ^ 255 : Nat) : ZMod p) = e at hy ⊢
  obtain ⟨a, ha⟩ := exists_rootOf (represents_num hy).1 (represents_den hy)
  rw [unpacknegVartime_eq] at h ⊢
  simp only at h ⊢
  generalize rootOf (sub (square (unpack b)) setone)
    (Fe25519.add setone (mul (square (unpack b)) ecd)) = x at h ha ⊢
  split at h
  · rename_i hcheck
    have hsq := sq_of_check (represents_num hy).1 (represents_den hy) ha hcheck
    rw [if_pos hcheck]
    refine ⟨_, denotes_sign (P := ⟨a, e, onCurve_iff.2 hsq⟩) ha hy
      (getparity x ≠ (1 : UInt8) - (b.getD 31 0 >>> 7)), ?_⟩
    split
    · rfl
    · rfl
  · exact absurd h (show (-1 : Int) ≠ 0 by decide)

/-- From the encoding of a point whose residues are clear it makes the opposite point. -/
theorem unpackneg_encode (r : Ge25519) {P : curve.Point} (hy : Clear (P.y * P.y - 1))
    (hx : Clear P.x) (hx' : Clear (-P.x)) :
    (unpacknegVartime r (encodePoint P)).1 = 0 ∧
      Denotes (unpacknegVartime r (encodePoint P)).2 (-P) := by
  have hrep := represents_encodePoint P
  obtain ⟨hnum, htight⟩ := represents_num hrep
  have hden := represents_den hrep
  have hden0 : 1 + P.y * P.y * (d : ZMod p) ≠ 0 := by
    have h := den_ne_zero P.y
    rwa [sq, mul_comm, add_comm] at h
  have hroot := onCurve_iff.1 P.onCurve
  obtain ⟨a, ha, hsign, hlt⟩ := rootOf_spec hnum hden htight hden0 hroot hy hx hx'
  have hsq : a ^ 2 * (1 + P.y * P.y * d) = P.y * P.y - 1 := by
    rw [← hroot]
    rcases hsign with rfl | rfl
    · rfl
    · rw [neg_sq]
  have hcheck := check_of_sq hnum hden htight hy ha hsq
  rw [unpacknegVartime_eq]
  simp only
  generalize rootOf (sub (square (unpack (encodePoint P))) setone)
    (Fe25519.add setone (mul (square (unpack (encodePoint P))) ecd)) = x at ha hlt hcheck ⊢
  rw [if_pos hcheck]
  refine ⟨rfl, ?_⟩
  have hdenotes := denotes_sign (P := ⟨a, P.y, onCurve_iff.2 hsq⟩) ha hrep
    (getparity x ≠ (1 : UInt8) - ((encodePoint P).getD 31 0 >>> 7))
  have hparity : getparity x ≠ (1 : UInt8) - ((encodePoint P).getD 31 0 >>> 7) ↔
      a.val % 2 ≠ 1 - P.x.val % 2 := by
    rw [Ne, ← UInt8.toNat_inj, parity_encodePoint, (getparity_iff ha.loose).2 hlt, value_mod ha]
  convert hdenotes using 1
  refine (Point.ext ?_ ?_).symm
  · rw [apply_ite Point.x, if_congr hparity rfl rfl]
    exact sign_eq hsign
  · rw [apply_ite Point.y]
    exact ite_self _

/-! ## Results -/

/-- **`ge25519_isneutral_vartime`** finds the neutral element and no other point, but does not find it
if just one of the two numbers it compares is too large. -/
theorem isneutral_iff {r : Ge25519} {P : curve.Point} (h : Denotes r P) :
    isneutralVartime r = true ↔ P = 0 ∧ (value r.y < 2 ^ 255 ↔ value r.z < 2 ^ 255) := by
  obtain ⟨X, Y, Z, T, hx, hy, hz, -, hext⟩ := h
  have hX : X = 0 ↔ P.x = 0 := by
    rw [hext.x_eq]
    exact mul_eq_zero_iff_right hext.z_ne_zero
  have hzero : iszero r.x ≠ 0 ↔ P.x = 0 := by
    rw [iszero_eq hx.loose, hx.cast, ← hX]
    split
    · rename_i h
      exact iff_of_true (by decide) h
    · rename_i h
      exact iff_of_false (by decide) h
  have hone : Y = Z ↔ P.y = 1 := by
    rw [hext.y_eq]
    exact ⟨fun h => mul_right_cancel₀ hext.z_ne_zero (h.trans (one_mul Z).symm),
      fun h => by rw [h, one_mul]⟩
  have hpoint : P = 0 ↔ P.x = 0 ∧ P.y = 1 :=
    ⟨fun h => by rw [h]; exact ⟨rfl, rfl⟩, fun h => Point.ext h.1 h.2⟩
  rw [isneutralVartime, Bool.and_eq_true, decide_eq_true_eq, hzero,
    iseqVartime_iff hy.loose hz.loose, hy.cast, hz.cast, hone, hpoint, and_assoc]

theorem isneutral_iff_base : isneutralVartime base = true ↔
    basePoint = 0 ∧ (value base.y < 2 ^ 255 ↔ value base.z < 2 ^ 255) :=
  isneutral_iff base_spec

/-- **Unpacking.**  What `ge25519_unpackneg_vartime` accepts is a point with the second coordinate in
the bytes.  It accepts the encoding of every point whose first coordinate, its opposite and `y² - 1`
are clear of the residues that products can get wrong, and makes the opposite point of it. -/
theorem point_unpack (r : Ge25519) {b : List UInt8} (hb : b.length = 32) :
    ((unpacknegVartime r b).1 = 0 → ∃ Q : curve.Point, Denotes (unpacknegVartime r b).2 Q ∧
        Q.y = (Nat.ofDigits 256 (b.map UInt8.toNat) % 2 ^ 255 : Nat)) ∧
      ∀ P : curve.Point, b = encodePoint P → Clear (P.y * P.y - 1) → Clear P.x → Clear (-P.x) →
        (unpacknegVartime r b).1 = 0 ∧ Denotes (unpacknegVartime r b).2 (-P) := by
  refine ⟨unpackneg_sound r hb, ?_⟩
  rintro P rfl hy hx hx'
  exact unpackneg_encode r hy hx hx'

theorem point_unpack_one :
    let b : List UInt8 := 1 :: List.replicate 31 0
    ((unpacknegVartime setneutral b).1 = 0 → ∃ Q : curve.Point,
        Denotes (unpacknegVartime setneutral b).2 Q ∧
          Q.y = (Nat.ofDigits 256 (b.map UInt8.toNat) % 2 ^ 255 : Nat)) ∧
      ∀ P : curve.Point, b = encodePoint P → Clear (P.y * P.y - 1) → Clear P.x → Clear (-P.x) →
        (unpacknegVartime setneutral b).1 = 0 ∧
          Denotes (unpacknegVartime setneutral b).2 (-P) :=
  point_unpack setneutral rfl

end Ge25519
end Zedboard
