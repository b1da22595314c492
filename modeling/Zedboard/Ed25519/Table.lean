import Zedboard.Ed25519.Curve

/-!
# The table of multiples

The entry `5 * i + j` of `ge25519_base_multiples_affine` is the point `[j * 8 ^ i]B`.  One test over
the table checks that every entry is the sum of earlier ones (`groupsOk`); since the addition has no
exceptional case, a sum is recognised without a division.  `chooseT_spec` is what the moves of
`choose_t` select.
-/

set_option autoImplicit false

namespace Zedboard
namespace Ge25519

open Fe25519 EdwardsCurve

/-! ## Sums of numbers -/

/-- The affine coordinates of a point as numbers. -/
structure Affine (e : Nat × Nat) (P : curve.Point) : Prop where
  x_lt : e.1 < p
  y_lt : e.2 < p
  x_eq : (e.1 : ZMod p) = P.x
  y_eq : (e.2 : ZMod p) = P.y

/-- The entry `u` is the sum of `e` and `f`, modulo `q`. -/
def sumOk (q : Nat) (e f u : Nat × Nat) : Bool :=
  let t := d * e.1 * f.1 * e.2 * f.2 % q
  u.1 < q && u.2 < q && (u.1 + u.1 * t) % q == (e.1 * f.2 + f.1 * e.2) % q &&
    u.2 % q == (e.2 * f.2 + e.1 * f.1 + u.2 * t) % q

theorem sumOk_spec {e f u : Nat × Nat} {P Q : curve.Point} (he : Affine e P) (hf : Affine f Q)
    (h : sumOk p e f u = true) : Affine u (P + Q) := by
  simp only [sumOk, Bool.and_eq_true, decide_eq_true_eq, beq_iff_eq] at h
  obtain ⟨⟨⟨hx_lt, hy_lt⟩, hx⟩, hy⟩ := h
  have hp := one_add_ne_zero P.onCurve Q.onCurve
  have hm := one_sub_ne_zero P.onCurve Q.onCurve
  rw [← ZMod.natCast_eq_natCast_iff'] at hx hy
  push_cast [ZMod.natCast_mod] at hx hy
  rw [he.x_eq, he.y_eq, hf.x_eq, hf.y_eq, ← curve_d] at hx hy
  refine ⟨hx_lt, hy_lt, ?_, ?_⟩
  · rw [Point.add_x, eq_div_iff hp]
    linear_combination hx
  · rw [Point.add_y, eq_div_iff hm, curve_a]
    linear_combination hy

/-! ## The table -/

/-- Every group of five entries is no to four times its second entry, and the next group is of eight
times it. -/
def groupsOk (q : Nat) : List (Nat × Nat) → Bool
  | e₀ :: e₁ :: e₂ :: e₃ :: e₄ :: l =>
    e₀ == (0, 1) && sumOk q e₁ e₁ e₂ && sumOk q e₂ e₁ e₃ && sumOk q e₃ e₁ e₄ &&
      (l.isEmpty || sumOk q e₄ e₄ (l.getD 1 (0, 0))) && groupsOk q l
  | _ => true

theorem affine_zero : Affine (0, 1) 0 := by
  have hp := p_eq
  refine ⟨?_, ?_, ?_, ?_⟩
  · change 0 < p
    omega
  · change 1 < p
    omega
  · exact Nat.cast_zero
  · exact Nat.cast_one

/-- The points of one group. -/
theorem group_spec {e₀ e₁ e₂ e₃ e₄ : Nat × Nat} {P : curve.Point} (h₀ : e₀ = (0, 1))
    (h₁ : Affine e₁ P) (h₂ : sumOk p e₁ e₁ e₂ = true) (h₃ : sumOk p e₂ e₁ e₃ = true)
    (h₄ : sumOk p e₃ e₁ e₄ = true) {j : Nat} (hj : j < 5) (l : List (Nat × Nat)) :
    Affine ((e₀ :: e₁ :: e₂ :: e₃ :: e₄ :: l).getD j (0, 0)) (j • P) := by
  have ha₂ : Affine e₂ (2 • P) := by
    rw [two_nsmul]
    exact sumOk_spec h₁ h₁ h₂
  have ha₃ : Affine e₃ (3 • P) := by
    rw [succ_nsmul]
    exact sumOk_spec ha₂ h₁ h₃
  have ha₄ : Affine e₄ (4 • P) := by
    rw [succ_nsmul]
    exact sumOk_spec ha₃ h₁ h₄
  match j, hj with
  | 0, _ =>
    rw [zero_nsmul, h₀]
    exact affine_zero
  | 1, _ => rwa [one_nsmul]
  | 2, _ => exact ha₂
  | 3, _ => exact ha₃
  | 4, _ => exact ha₄

/-- **Every entry is the multiple that it should be.** -/
theorem groupsOk_spec : ∀ {n : Nat} {l : List (Nat × Nat)} {P : curve.Point}, l.length = 5 * n →
    groupsOk p l = true → Affine (l.getD 1 (0, 0)) P → ∀ {i j : Nat}, i < n → j < 5 →
      Affine (l.getD (5 * i + j) (0, 0)) ((j * 8 ^ i) • P)
  | n + 1, e₀ :: e₁ :: e₂ :: e₃ :: e₄ :: l, P, hlen, h, h₁, i, j, hi, hj => by
    simp only [groupsOk, Bool.and_eq_true, Bool.or_eq_true, beq_iff_eq] at h
    obtain ⟨⟨⟨⟨⟨h₀, h₂⟩, h₃⟩, h₄⟩, h₅⟩, hrest⟩ := h
    cases i with
    | zero =>
      rw [Nat.mul_zero, Nat.zero_add, pow_zero, Nat.mul_one]
      exact group_spec h₀ h₁ h₂ h₃ h₄ hj l
    | succ i =>
      have hlen' : l.length = 5 * n := by
        simp only [List.length_cons] at hlen
        omega
      have hne : ¬l.isEmpty = true := by
        rw [List.isEmpty_iff_length_eq_zero, hlen']
        omega
      have ha₄ : Affine e₄ (4 • P) := group_spec h₀ h₁ h₂ h₃ h₄ (show 4 < 5 by decide) l
      have hnext : Affine (l.getD 1 (0, 0)) (8 • P) := by
        have hsum := sumOk_spec ha₄ ha₄ (h₅.resolve_left hne)
        rwa [← add_nsmul] at hsum
      have ih := groupsOk_spec hlen' hrest hnext (i := i) (j := j) (by omega) hj
      rw [← mul_nsmul', Nat.mul_assoc, ← pow_succ] at ih
      have hplace : 5 * (i + 1) + j = 5 * i + j + 1 + 1 + 1 + 1 + 1 := by omega
      rw [hplace]
      simpa only [List.getD_cons_succ] using ih

theorem affine_basePoint : Affine (ge25519BaseData.getD 1 (0, 0)) basePoint := by
  refine ⟨?_, ?_, rfl, rfl⟩
  · rw [p_eq]
    decide
  · rw [p_eq]
    decide

set_option maxRecDepth 10000 in
theorem length_base : ge25519BaseData.length = 5 * 85 := rfl

theorem groupsOk_base : groupsOk p ge25519BaseData = true := by
  rw [p_eq]
  decide +kernel

theorem represents_ofNat {n : Nat} (h : n < p) : Represents (ofNat n) n := by
  have hp := p_eq
  have hnats : nats (ofNat n).v = (List.range 32).map (digit 256 n) := by
    rw [ofNat, nats, List.map_map]
    refine List.map_congr_left fun k _ => ?_
    have hlt := digit_lt (show 0 < 256 by decide) n k
    rw [Function.comp_apply, UInt32.toNat_ofNat', Nat.mod_eq_of_lt (by omega)]
  have hvalue : value (ofNat n) = n := by
    rw [value, hnats, ofDigits_map_digit, Nat.mod_eq_of_lt (by omega)]
  have hsplit : (List.range 32).map (digit 256 n) =
      (List.range 31).map (digit 256 n) ++ [digit 256 n 31] := by
    rw [List.range_succ, List.map_append, List.map_singleton]
  have hbytes : looseWords = (List.range 31).map (fun _ => 255) ++ [128] := rfl
  refine ⟨?_, by rw [hvalue]⟩
  rw [Loose, hnats, hsplit, hbytes]
  refine List.rel_append (List.forall₂_map_left_iff.2 (List.forall₂_map_right_iff.2
    (List.forall₂_same.2 fun k _ => ?_))) (.cons ?_ .nil)
  · exact Nat.le_of_lt_succ (digit_lt (by decide) n k)
  · rw [digit]
    omega

/-- **The table.** -/
theorem baseMultiplesAffine_spec {i j : Nat} (hi : i < 85) (hj : j < 5) :
    DenotesAff (baseMultiplesAffine (5 * i + j)) ((j * 8 ^ i) • basePoint) := by
  have h := groupsOk_spec length_base groupsOk_base affine_basePoint hi hj
  refine ⟨?_, ?_⟩
  · rw [← h.x_eq]
    exact represents_ofNat h.x_lt
  · rw [← h.y_eq]
    exact represents_ofNat h.y_lt

/-! ## Moves -/

theorem select_zero (r x : UInt32) : r ^^^ (-(0 : UInt8).toUInt32 &&& (x ^^^ r)) = r := by
  rw [show -(0 : UInt8).toUInt32 = 0 by decide, UInt32.zero_and, UInt32.xor_zero]

theorem select_one (r x : UInt32) : r ^^^ (-(1 : UInt8).toUInt32 &&& (x ^^^ r)) = x := by
  rw [show -(1 : UInt8).toUInt32 = -1 by decide, UInt32.neg_one_and, UInt32.xor_comm,
    UInt32.xor_assoc, UInt32.xor_self, UInt32.xor_zero]

theorem cmov_zero (r x : Fe25519) : cmov r x 0 = r := by
  have hwords : r.v.zipWith (fun r x => r ^^^ (-(0 : UInt8).toUInt32 &&& (x ^^^ r))) x.v = r.v := by
    refine List.ext_getElem ?_ fun k h1 h2 => ?_
    · rw [List.length_zipWith, r.length_v, x.length_v, Nat.min_self]
    · rw [List.getElem_zipWith]
      exact select_zero _ _
  exact Fe25519.ext hwords

theorem cmov_one (r x : Fe25519) : cmov r x 1 = x := by
  have hwords : r.v.zipWith (fun r x => r ^^^ (-(1 : UInt8).toUInt32 &&& (x ^^^ r))) x.v = x.v := by
    refine List.ext_getElem ?_ fun k h1 h2 => ?_
    · rw [List.length_zipWith, r.length_v, x.length_v, Nat.min_self]
    · rw [List.getElem_zipWith]
      exact select_one _ _
  exact Fe25519.ext hwords

theorem cmovAff_zero (r q : Ge25519Aff) : cmovAff r q 0 = r := by
  rw [cmovAff, cmov_zero, cmov_zero]

theorem cmovAff_one (r q : Ge25519Aff) : cmovAff r q 1 = q := by
  rw [cmovAff, cmov_one, cmov_one]

/-- The moves of `choose_t` for a digit. -/
def Masks (b : Int8) : Prop :=
  (equal b 1 ||| equal b (-1)) = (if b.toInt.natAbs = 1 then 1 else 0) ∧
    (equal b 2 ||| equal b (-2)) = (if b.toInt.natAbs = 2 then 1 else 0) ∧
    (equal b 3 ||| equal b (-3)) = (if b.toInt.natAbs = 3 then 1 else 0) ∧
    equal b (-4) = (if b.toInt = -4 then 1 else 0) ∧
    negative b = if b.toInt < 0 then 1 else 0

instance (b : Int8) : Decidable (Masks b) := inferInstanceAs (Decidable (_ ∧ _))

theorem masks : ∀ k < 8, Masks (Int8.ofInt ((k : Nat) - 4)) := by decide

theorem exists_digit {b : Int8} (hlow : -4 ≤ b.toInt) (hhigh : b.toInt < 4) : Masks b := by
  have h := masks (b.toInt + 4).toNat (by omega)
  have hk : (((b.toInt + 4).toNat : Nat) : Int) - 4 = b.toInt := by omega
  rwa [hk, Int8.ofInt_toInt] at h

/-- **`choose_t` selects** the multiple of a digit that `sc25519_window3` can produce. -/
theorem chooseT_spec {pos : Nat} {b : Int8} (hpos : pos < 85) (hlow : -4 ≤ b.toInt)
    (hhigh : b.toInt < 4) : DenotesAff (chooseT pos b) ((b.toInt * 8 ^ pos) • basePoint) := by
  obtain ⟨h1, h2, h3, h4, hneg⟩ := exists_digit hlow hhigh
  have h4' : b.toInt = -4 ↔ b.toInt.natAbs = 4 := by omega
  rw [if_congr h4' rfl rfl] at h4
  have hsel : chooseT pos b =
      let t := baseMultiplesAffine (5 * pos + b.toInt.natAbs)
      { t with x := cmov t.x (neg t.x) (negative b) } := by
    have hcases : b.toInt.natAbs = 0 ∨ b.toInt.natAbs = 1 ∨ b.toInt.natAbs = 2 ∨
        b.toInt.natAbs = 3 ∨ b.toInt.natAbs = 4 := by omega
    rw [chooseT, h1, h2, h3, h4]
    rcases hcases with h | h | h | h | h <;> simp [h, cmovAff_zero, cmovAff_one]
  have hentry := baseMultiplesAffine_spec hpos (show b.toInt.natAbs < 5 by omega)
  rw [hsel, hneg]
  by_cases hb : b.toInt < 0
  · have hpoint : (b.toInt * 8 ^ pos) • basePoint = -((b.toInt.natAbs * 8 ^ pos) • basePoint) := by
      rw [← natCast_zsmul, ← neg_zsmul]
      refine congrArg (· • basePoint) ?_
      push_cast
      rw [abs_of_neg hb, neg_mul, neg_neg]
    rw [hpoint, if_pos hb]
    refine ⟨?_, hentry.y⟩
    simp only [cmov_one]
    exact hentry.x.neg
  · have hpoint : (b.toInt * 8 ^ pos) • basePoint = (b.toInt.natAbs * 8 ^ pos) • basePoint := by
      rw [← natCast_zsmul]
      refine congrArg (· • basePoint) ?_
      push_cast
      rw [abs_of_nonneg (not_lt.1 hb)]
    rw [hpoint, if_neg hb]
    refine ⟨?_, hentry.y⟩
    simp only [cmov_zero]
    exact hentry.x

/-! ## Result -/

/-- **Multiples of the base point.**  Each entry of the table is the multiple for its place, and
`choose_t` selects, at every place, the multiple of every digit that `sc25519_window3` can produce. -/
theorem table_multiples {pos : Nat} (hpos : pos < 85) :
    (∀ j < 5, DenotesAff (baseMultiplesAffine (5 * pos + j)) ((j * 8 ^ pos) • basePoint)) ∧
      ∀ b : Int8, -4 ≤ b.toInt → b.toInt < 4 →
        DenotesAff (chooseT pos b) ((b.toInt * 8 ^ pos) • basePoint) :=
  ⟨fun _ hj => baseMultiplesAffine_spec hpos hj, fun _ => chooseT_spec hpos⟩

theorem table_multiples_last :
    (∀ j < 5, DenotesAff (baseMultiplesAffine (5 * 84 + j)) ((j * 8 ^ 84) • basePoint)) ∧
      ∀ b : Int8, -4 ≤ b.toInt → b.toInt < 4 →
        DenotesAff (chooseT 84 b) ((b.toInt * 8 ^ 84) • basePoint) :=
  table_multiples (by decide)

end Ge25519
end Zedboard
