import Zedboard.Ed25519.Curve

/-!
# Points as bytes

A point is encoded by its second coordinate, with the parity of the first in the top bit; no other
point has the same bytes.  `ge25519_pack` writes the encoding exactly if neither quotient comes out
of `fe25519_mul` too large for `fe25519_freeze`.
-/

set_option autoImplicit false

namespace Zedboard
namespace Ge25519

open Fe25519 EdwardsCurve

/-- The encoding of a point. -/
def encodePoint (P : curve.Point) : List UInt8 := encode (P.y.val + 2 ^ 255 * (P.x.val % 2))

/-! ## The encoding is injective -/

theorem val_lt_p (a : ZMod p) : a.val < 2 ^ 255 := by
  have hp := p_eq
  have hlt := ZMod.val_lt a
  omega

/-- `y² - 1 = (d y² + 1) x²`, and the factor is not zero. -/
theorem den_ne_zero (y : ZMod p) : (d : ZMod p) * y ^ 2 + 1 ≠ 0 := by
  intro h
  by_cases hy : y = 0
  · rw [hy] at h
    simp at h
  · refine not_isSquare_d ⟨value sqrtm1 * y⁻¹, ?_⟩
    have hinv := mul_inv_cancel₀ hy
    linear_combination y⁻¹ ^ 2 * h - ((d : ZMod p) * (y * y⁻¹ + 1)) * hinv - y⁻¹ ^ 2 * sqrtm1_sq

theorem sq_eq_of_y_eq {P Q : curve.Point} (h : P.y = Q.y) : P.x ^ 2 = Q.x ^ 2 := by
  have hP := P.onCurve
  have hQ := Q.onCurve
  rw [OnCurve, curve_a, curve_d] at hP hQ
  rw [h] at hP
  refine mul_left_cancel₀ (den_ne_zero Q.y) ?_
  linear_combination hQ - hP

/-- The two roots of a square differ in their parity. -/
theorem parity_neg {a : ZMod p} (ha : a ≠ 0) : (-a).val % 2 ≠ a.val % 2 := by
  have hp := p_eq
  have hlt := ZMod.val_lt a
  have : NeZero a := ⟨ha⟩
  rw [ZMod.val_neg_of_ne_zero]
  omega

theorem eq_of_parity {a b : ZMod p} (hsq : a ^ 2 = b ^ 2) (h : a.val % 2 = b.val % 2) : a = b := by
  rcases sq_eq_sq_iff_eq_or_eq_neg.1 hsq with heq | heq
  · exact heq
  · by_cases hb : b = 0
    · rw [heq, hb, neg_zero]
    · rw [heq] at h
      exact absurd h (parity_neg hb)

/-- **Different points have different bytes.** -/
theorem encodePoint_inj {P Q : curve.Point} (h : encodePoint P = encodePoint Q) : P = Q := by
  have hP := val_lt_p P.y
  have hQ := val_lt_p Q.y
  have hnum := encode_inj (by omega) (by omega) h
  have hy : P.y = Q.y := ZMod.val_injective p (by omega)
  exact Point.ext (eq_of_parity (sq_eq_of_y_eq hy) (by omega)) hy

/-! ## `ge25519_pack` -/

set_option maxRecDepth 2000 in
theorem xor_top : ∀ b < 256, ∀ c < 2,
    (UInt8.ofNat b ^^^ (UInt8.ofNat c <<< 7)).toNat = b % 128 + 128 * ((b / 128 + c) % 2) := by
  decide

/-- The top bit of the bytes of a number, turned over. -/
theorem modify_encode {n : Nat} {c : UInt8} (hc : c.toNat < 2) :
    (encode n).modify 31 (fun b => b ^^^ (c <<< 7)) =
      encode (n % 2 ^ 255 + 2 ^ 255 * ((n / 2 ^ 255 + c.toNat) % 2)) := by
  have hsplit : encode n =
      (List.range 31).map (fun k => UInt8.ofNat (digit 256 n k)) ++
        [UInt8.ofNat (digit 256 n 31)] := by
    rw [encode, List.range_succ, List.map_append, List.map_singleton]
  have hmodify : (encode n).modify 31 (fun b => b ^^^ (c <<< 7)) =
      (List.range 31).map (fun k => UInt8.ofNat (digit 256 n k)) ++
        [UInt8.ofNat (digit 256 n 31) ^^^ (c <<< 7)] := by
    rw [hsplit, List.modify_eq_take_cons_drop (by simp)]
    simp
  have hlow : ((List.range 31).map fun k => UInt8.ofNat (digit 256 n k)).map UInt8.toNat =
      (List.range 31).map (digit 256 n) := by
    rw [List.map_map]
    refine List.map_congr_left fun k _ => ?_
    rw [Function.comp_apply, UInt8.toNat_ofNat', Nat.mod_eq_of_lt (digit_lt (by decide) n k)]
  have hhigh := xor_top (digit 256 n 31) (digit_lt (by decide) n 31) c.toNat hc
  rw [UInt8.ofNat_toNat] at hhigh
  have hlen : ((encode n).modify 31 fun b => b ^^^ (c <<< 7)).length = 32 := by
    rw [List.length_modify, encode, List.length_map, List.length_range]
  rw [← encode_eq hlen, hmodify, List.map_append, hlow, List.map_singleton, hhigh,
    Nat.ofDigits_append, Nat.ofDigits_singleton, ofDigits_map_digit, List.length_map,
    List.length_range]
  refine congrArg encode ?_
  rw [digit]
  omega

theorem length_pack (r : Ge25519) : (pack r).length = 32 := by
  rw [pack, List.length_modify, Fe25519.pack, List.length_map, Fe25519.length_v]

/-- The words of the two quotients in `ge25519_pack`. -/
theorem quotients {r : Ge25519} {P : curve.Point} (h : Denotes r P) :
    Represents (mul r.x (invert r.z)) P.x ∧ Represents (mul r.y (invert r.z)) P.y := by
  obtain ⟨X, Y, Z, T, hx, hy, hz, -, hext⟩ := h
  rw [← hext.x_div, ← hext.y_div]
  exact ⟨hx.mul hz.inv, hy.mul hz.inv⟩

theorem value_mod {x : Fe25519} {a : ZMod p} (h : Represents x a) : value x % p = a.val := by
  rw [← h.cast, ZMod.val_natCast]

/-- A product that is clear of the residues in between comes out small enough. -/
theorem product_lt {x y : Fe25519} {a b c : ZMod p} (hx : Represents x a) (hy : Represents y b)
    (hxy : Represents (mul x y) c) (hc : Clear c) : value (mul x y) < 2 ^ 255 := by
  refine (mul_tight hx.loose hy.loose ?_).lt
  rwa [← (mul_spec hx.loose hy.loose).2.1, hxy.cast]

/-- **`ge25519_pack`** writes the encoding if and only if both quotients are below `2 ^ 255`. -/
theorem pack_iff {r : Ge25519} {P : curve.Point} (h : Denotes r P) :
    pack r = encodePoint P ↔
      value (mul r.x (invert r.z)) < 2 ^ 255 ∧ value (mul r.y (invert r.z)) < 2 ^ 255 := by
  have hp := p_eq
  obtain ⟨hx, hy⟩ := quotients h
  have hxval := value_mod hx
  have hyval := value_mod hy
  have hylt := hy.loose.freeze.value_lt
  have hPy := val_lt_p P.y
  have hparity := getparity_eq (mul r.x (invert r.z))
  have hpack : pack r =
      encode (value (freeze (mul r.y (invert r.z))) % 2 ^ 255 + 2 ^ 255 *
        ((value (freeze (mul r.y (invert r.z))) / 2 ^ 255 +
          (getparity (mul r.x (invert r.z))).toNat) % 2)) := by
    rw [pack, pack_eq hy.loose]
    exact modify_encode (by omega)
  have hencode : pack r = encodePoint P ↔
      value (freeze (mul r.y (invert r.z))) % 2 ^ 255 = P.y.val ∧
        (value (freeze (mul r.y (invert r.z))) / 2 ^ 255 +
          (getparity (mul r.x (invert r.z))).toNat) % 2 = P.x.val % 2 := by
    rw [hpack, encodePoint]
    refine ⟨fun heq => ?_, fun ⟨h1, h2⟩ => by rw [h1, h2]⟩
    have hnum := encode_inj (by omega) (by omega) heq
    omega
  rw [hencode]
  rcases Nat.lt_or_ge (value (mul r.y (invert r.z))) (2 ^ 255) with hylow | hyhigh
  · rw [(Tight.mk hy.loose hylow).value_freeze, hyval, Nat.mod_eq_of_lt hPy,
      Nat.div_eq_of_lt hPy, Nat.zero_add, ← getparity_iff hx.loose, hxval]
    have hbit : (getparity (mul r.x (invert r.z))).toNat < 2 := by omega
    rw [Nat.mod_eq_of_lt hbit]
    exact ⟨fun h => ⟨h.2, hylow⟩, fun h => ⟨rfl, h.1⟩⟩
  · rw [mod_of_ge hy.loose hyhigh] at hyval
    rw [value_freeze_of_ge hy.loose hyhigh]
    have hlt := hy.loose.value_lt
    exact iff_of_false (fun h => by omega) (fun h => by omega)

/-! ## Result -/

/-- **Packing.**  `ge25519_pack` writes thirty-two bytes; they are the encoding of the point if and only
if both quotients are below `2 ^ 255`, and so for every point whose coordinates are clear of the
residues in between; and no other point has this encoding. -/
theorem point_pack {r : Ge25519} {P : curve.Point} (h : Denotes r P) :
    (pack r).length = 32 ∧
      (pack r = encodePoint P ↔
        value (mul r.x (invert r.z)) < 2 ^ 255 ∧ value (mul r.y (invert r.z)) < 2 ^ 255) ∧
      (Clear P.x → Clear P.y → pack r = encodePoint P) ∧
      ∀ Q : curve.Point, encodePoint Q = encodePoint P → Q = P := by
  obtain ⟨hx, hy⟩ := quotients h
  obtain ⟨X, Y, Z, T, hX, hY, hZ, -, -⟩ := id h
  refine ⟨length_pack r, pack_iff h, fun hclearx hcleary => (pack_iff h).2 ⟨?_, ?_⟩,
    fun Q hQ => encodePoint_inj hQ⟩
  · exact product_lt hX hZ.inv hx hclearx
  · exact product_lt hY hZ.inv hy hcleary

theorem point_pack_base :
    (pack base).length = 32 ∧
      (pack base = encodePoint basePoint ↔ value (mul base.x (invert base.z)) < 2 ^ 255 ∧
        value (mul base.y (invert base.z)) < 2 ^ 255) ∧
      (Clear basePoint.x → Clear basePoint.y → pack base = encodePoint basePoint) ∧
      ∀ Q : curve.Point, encodePoint Q = encodePoint basePoint → Q = basePoint :=
  point_pack base_spec

end Ge25519
end Zedboard
