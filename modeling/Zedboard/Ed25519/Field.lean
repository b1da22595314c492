import Mathlib.Algebra.Field.ZMod
import Zedboard.Ed25519.Fe25519
import Zedboard.Lib.Radix

/-!
# What the field operations compute

The words of a field element are `Loose` between operations: every word a byte, the last one at most
`128`.  On such words no operation overflows, every operation leaves such words, and the residue of
the number in them is the one that it should be (`Represents`).

`add`, `sub` and `neg` leave a number below `2 ^ 255` (`Tight`), but `mul` makes one pass less.  What
`freeze` does with a number that is not below `2 ^ 255` is in the module on canonical forms.
-/

set_option autoImplicit false

namespace Zedboard
namespace Fe25519

/-- The modulus. -/
@[irreducible] def p : Nat := 2 ^ 255 - 19

theorem p_eq : p = 2 ^ 255 - 19 := by
  rw [p]

/-- The number in the words. -/
def value (x : Fe25519) : Nat := Nat.ofDigits 256 (nats x.v)

def looseWords : List Nat := List.replicate 31 255 ++ [128]

/-- The words between two operations. -/
def Loose (x : Fe25519) : Prop := LimbsLe (nats x.v) looseWords

instance (x : Fe25519) : Decidable (Loose x) := inferInstanceAs (Decidable (LimbsLe _ _))

/-- The words of a number that `freeze` can reduce. -/
structure Tight (x : Fe25519) : Prop where
  loose : Loose x
  lt : value x < 2 ^ 255

/-- The words stand for the residue `a`. -/
structure Represents (x : Fe25519) (a : ZMod p) : Prop where
  loose : Loose x
  cast : (value x : ZMod p) = a

/-! ## One pass -/

theorem toNat_times19 {a : UInt32} (h : 19 * a.toNat < 2 ^ 32) :
    (times19 a).toNat = 19 * a.toNat := by
  have h4 : (a <<< 4).toNat = a.toNat * 16 % 2 ^ 32 := by
    rw [UInt32.toNat_shiftLeft]
    exact congrArg (· % 2 ^ 32) (Nat.shiftLeft_eq _ 4)
  have h1 : (a <<< 1).toNat = a.toNat * 2 % 2 ^ 32 := by
    rw [UInt32.toNat_shiftLeft]
    exact congrArg (· % 2 ^ 32) (Nat.shiftLeft_eq _ 1)
  rw [times19, UInt32.toNat_add, UInt32.toNat_add, h4, h1]
  omega

theorem toNat_times38 {a : UInt32} (h : 38 * a.toNat < 2 ^ 32) :
    (times38 a).toNat = 38 * a.toNat := by
  have h5 : (a <<< 5).toNat = a.toNat * 32 % 2 ^ 32 := by
    rw [UInt32.toNat_shiftLeft]
    exact congrArg (· % 2 ^ 32) (Nat.shiftLeft_eq _ 5)
  have h2 : (a <<< 2).toNat = a.toNat * 4 % 2 ^ 32 := by
    rw [UInt32.toNat_shiftLeft]
    exact congrArg (· % 2 ^ 32) (Nat.shiftLeft_eq _ 2)
  have h1 : (a <<< 1).toNat = a.toNat * 2 % 2 ^ 32 := by
    rw [UInt32.toNat_shiftLeft]
    exact congrArg (· % 2 ^ 32) (Nat.shiftLeft_eq _ 1)
  rw [times38, UInt32.toNat_add, UInt32.toNat_add, h5, h2, h1]
  omega

theorem toNat_and_127 (x : UInt32) : (x &&& 127).toNat = x.toNat % 128 := by
  rw [UInt32.toNat_and]
  exact Nat.and_two_pow_sub_one_eq_mod _ 7

theorem toNat_shiftRight_7 (x : UInt32) : (x >>> 7).toNat = x.toNat / 128 := by
  rw [UInt32.toNat_shiftRight]
  exact Nat.shiftRight_eq_div_pow _ 7

/-- One pass, on numbers. -/
def passNat (l : List Nat) : List Nat :=
  carry 256 (19 * (l.getD 31 0 / 128)) (l.set 31 (l.getD 31 0 % 128))

/-- Upper bounds after a pass, from upper bounds before it. -/
def passCap (u : List Nat) : List Nat :=
  carryCap 256 (19 * (u.getD 31 0 / 128)) (u.set 31 (min 127 (u.getD 31 0)))

/-- Words with these bounds do not overflow in a pass. -/
def PassFits (u : List Nat) : Prop :=
  19 * (u.getD 31 0 / 128) < 2 ^ 32 ∧
    Fits (2 ^ 32) 256 (19 * (u.getD 31 0 / 128)) (u.set 31 (min 127 (u.getD 31 0)))

instance (u : List Nat) : Decidable (PassFits u) := inferInstanceAs (Decidable (_ ∧ _))

theorem mod_le_min {a c : Nat} (h : a ≤ c) : a % 128 ≤ min 127 c :=
  Nat.le_min.2 ⟨Nat.le_of_lt_succ (Nat.mod_lt _ (by decide)), (Nat.mod_le _ _).trans h⟩

theorem PassFits.mono {l u : List Nat} (hfit : PassFits u) (h : LimbsLe l u) : PassFits l := by
  have htop := Nat.mul_le_mul_left 19 (Nat.div_le_div_right (c := 128) (h.getD 31))
  exact ⟨Nat.lt_of_le_of_lt htop hfit.1,
    hfit.2.mono htop (h.set 31 (min_le_min_left 127 (h.getD 31)))⟩

theorem passNat_le {l u : List Nat} (h : LimbsLe l u) : LimbsLe (passNat l) (passCap u) :=
  carry_le (by decide) (Nat.mul_le_mul_left 19 (Nat.div_le_div_right (h.getD 31)))
    (h.set 31 (mod_le_min (h.getD 31)))

/-- A pass on words is a pass on numbers. -/
theorem nats_reducePass {v : List UInt32} {u : List Nat} (h : LimbsLe (nats v) u)
    (hfit : PassFits u) : nats (reducePass v) = passNat (nats v) := by
  have htop := h.getD 31
  have hq : 19 * ((nats v).getD 31 0 / 128) ≤ 19 * (u.getD 31 0 / 128) :=
    Nat.mul_le_mul_left 19 (Nat.div_le_div_right htop)
  have ht : (times19 (v.getD 31 0 >>> 7)).toNat = 19 * ((nats v).getD 31 0 / 128) := by
    rw [toNat_times19, toNat_shiftRight_7, toNat_getD]
    rw [toNat_shiftRight_7, toNat_getD]
    exact Nat.lt_of_le_of_lt hq hfit.1
  have hset : nats (v.set 31 (v.getD 31 0 &&& 127)) =
      (nats v).set 31 ((nats v).getD 31 0 % 128) := by
    rw [nats, List.map_set, toNat_and_127, toNat_getD]
  rw [reducePass, nats_carryLoop, ht, hset, passNat]
  rw [ht, hset]
  exact hfit.2.mono hq (h.set 31 (mod_le_min htop))

/-- A pass subtracts the modulus as often as the top word says. -/
theorem ofDigits_passNat {l : List Nat} (h : l.length = 32) :
    Nat.ofDigits 256 (passNat l) + l.getD 31 0 / 128 * p = Nat.ofDigits 256 l := by
  have hne : l.set 31 (l.getD 31 0 % 128) ≠ [] := by
    rw [Ne, ← List.length_eq_zero_iff, List.length_set, h]
    decide
  have hset := ofDigits_set 256 (l.getD 31 0 % 128) 31 l (by omega)
  rw [passNat, ofDigits_carry _ _ _ hne, p_eq]
  omega

/-- **Passes** keep the residue, and their words are within the bounds. -/
theorem iterate_reducePass (n : Nat) : ∀ {v : List UInt32} {u : List Nat}, v.length = 32 →
    LimbsLe (nats v) u → (∀ k < n, PassFits (passCap^[k] u)) →
      nats (reducePass^[n] v) = passNat^[n] (nats v) ∧
        LimbsLe (nats (reducePass^[n] v)) (passCap^[n] u) ∧
        ((Nat.ofDigits 256 (nats (reducePass^[n] v)) : Nat) : ZMod p) =
          (Nat.ofDigits 256 (nats v) : Nat) := by
  induction n with
  | zero => exact fun _ h _ => ⟨rfl, h, rfl⟩
  | succ n ih =>
    intro v u hlen h hfit
    have hpass := nats_reducePass h (hfit 0 (Nat.succ_pos n))
    have hle : LimbsLe (nats (reducePass v)) (passCap u) := hpass ▸ passNat_le h
    have ih := ih (by rwa [length_reducePass]) hle fun k hk => hfit (k + 1) (Nat.succ_lt_succ hk)
    have hvalue := ofDigits_passNat (l := nats v) (by rwa [List.length_map])
    refine ⟨?_, ih.2.1, ?_⟩
    · rw [Function.iterate_succ_apply, Function.iterate_succ_apply, ih.1, hpass]
    · rw [Function.iterate_succ_apply, ih.2.2, hpass, ← hvalue, Nat.cast_add, Nat.cast_mul,
        ZMod.natCast_self, mul_zero, add_zero]

/-- Nor does any word on the way. -/
theorem passFits_reducePass {n : Nat} {v : List UInt32} {u : List Nat} (hlen : v.length = 32)
    (h : LimbsLe (nats v) u) (hfit : ∀ k < n, PassFits (passCap^[k] u)) :
    ∀ k < n, PassFits (nats (reducePass^[k] v)) := fun k hk =>
  (hfit k hk).mono (iterate_reducePass k hlen h fun j hj => hfit j (hj.trans hk)).2.1

/-! ## Multiplication -/

theorem Loose.le {x : Fe25519} (h : Loose x) : LimbsLe (nats x.v) looseWords := h

/-- The sums of products are bounded, word by word. -/
def mulCap : List Nat :=
  accumulate (List.replicate 63 0) (products (fun _ => true) looseWords looseWords)

/-- The words of a product above the thirty-second, folded back. -/
def foldNat (t : List Nat) : List Nat :=
  (List.range 31).map (fun i => t.getD i 0 + 38 * t.getD (i + 32) 0) ++ [t.getD 31 0]

theorem foldNat_le {t u : List Nat} (h : LimbsLe t u) : LimbsLe (foldNat t) (foldNat u) := by
  refine List.rel_append (List.forall₂_map_left_iff.2 (List.forall₂_map_right_iff.2
    (List.forall₂_same.2 fun i _ => ?_))) (.cons (h.getD 31) .nil)
  exact Nat.add_le_add (h.getD i) (Nat.mul_le_mul_left 38 (h.getD (i + 32)))

theorem nats_foldWords {t : List UInt32} {u : List Nat} (h : LimbsLe (nats t) u)
    (hfit : ∀ i < 31, u.getD i 0 + 38 * u.getD (i + 32) 0 < 2 ^ 32) :
    nats (foldWords t) = foldNat (nats t) := by
  rw [nats, foldWords, List.map_append, List.map_map, List.map_singleton, toNat_getD, foldNat]
  refine congrArg (· ++ _) (List.map_congr_left fun i hi => ?_)
  have hlow := h.getD i
  have hhigh := h.getD (i + 32)
  have hlt := hfit i (List.mem_range.1 hi)
  have h38 : (times38 (t.getD (i + 32) 0)).toNat = 38 * (nats t).getD (i + 32) 0 := by
    rw [toNat_times38, toNat_getD]
    rw [toNat_getD]
    omega
  rw [Function.comp_apply, toNat_add_of_lt, h38, toNat_getD]
  rw [h38, toNat_getD]
  omega

/-- Folding subtracts a multiple of the modulus. -/
theorem ofDigits_foldNat {t : List Nat} (h : t.length = 63) :
    Nat.ofDigits 256 (foldNat t) + 2 * p * Nat.ofDigits 256 (t.drop 32) =
      Nat.ofDigits 256 t := by
  have hlow : (List.range 31).map (fun i => t.getD i 0) ++ [t.getD 31 0] = t.take 32 := by
    have hrange := map_range_getD 0 (l := t) (k := 0) (n := 32) (by omega)
    simp only [Nat.zero_add, List.drop_zero] at hrange
    rw [← hrange, show List.range 32 = List.range 31 ++ [31] from rfl, List.map_append,
      List.map_singleton]
  have hhigh : (List.range 31).map (fun i => t.getD (i + 32) 0) = t.drop 32 := by
    have hrange := map_range_getD 0 (l := t) (k := 32) (n := 31) (by omega)
    rw [List.take_of_length_le (by rw [List.length_drop]; omega)] at hrange
    simpa only [Nat.add_comm] using hrange
  have happend : ∀ x y : List Nat, x.length = 31 → Nat.ofDigits 256 (x ++ y) =
      Nat.ofDigits 256 x + 256 ^ 31 * Nat.ofDigits 256 y := by
    intro x y hx
    rw [Nat.ofDigits_append, hx]
  have hlen : (t.take 32).length = 32 := by
    rw [List.length_take, h]
    rfl
  have hfold : Nat.ofDigits 256 (foldNat t) =
      Nat.ofDigits 256 (t.take 32) + 38 * Nat.ofDigits 256 (t.drop 32) := by
    rw [← hlow, ← hhigh, foldNat, happend _ _ (by simp), happend _ _ (by simp), ofDigits_map_add,
      ofDigits_map_mul]
    ring
  have hall : Nat.ofDigits 256 t =
      Nat.ofDigits 256 (t.take 32) + 256 ^ 32 * Nat.ofDigits 256 (t.drop 32) := by
    conv_lhs => rw [← List.take_append_drop 32 t, Nat.ofDigits_append, hlen]
  rw [hfold, hall, p_eq]
  ring

/-- What a pass leaves is hardly more than what fits below the top bit. -/
theorem ofDigits_passNat_lt {l u : List Nat} (hlen : l.length = 32) (h : LimbsLe l u) :
    Nat.ofDigits 256 (passNat l) ≤
      Nat.ofDigits 256 (u.set 31 127) + 19 * (u.getD 31 0 / 128) := by
  have hne : l.set 31 (l.getD 31 0 % 128) ≠ [] := by
    rw [Ne, ← List.length_eq_zero_iff, List.length_set, hlen]
    decide
  have hset : LimbsLe (l.set 31 (l.getD 31 0 % 128)) (u.set 31 127) :=
    h.set 31 (Nat.le_of_lt_succ (Nat.mod_lt _ (by decide)))
  rw [passNat, ofDigits_carry _ _ _ hne]
  exact Nat.add_le_add (ofDigits_mono 256 hset)
    (Nat.mul_le_mul_left 19 (Nat.div_le_div_right (h.getD 31)))

theorem length_nats (x : Fe25519) : (nats x.v).length = 32 := by
  rw [List.length_map, x.length_v]

theorem length_mulWords (x y : Fe25519) : (nats (mulWords x y)).length = 63 := by
  rw [List.length_map, mulWords, length_accumulate, List.length_replicate]

set_option maxRecDepth 20000 in
theorem mulCap_eq : mulCap =
  [65025, 130050, 195075, 260100, 325125, 390150, 455175, 520200, 585225, 650250, 715275, 780300,
    845325, 910350, 975375, 1040400, 1105425, 1170450, 1235475, 1300500, 1365525, 1430550,
    1495575, 1560600, 1625625, 1690650, 1755675, 1820700, 1885725, 1950750, 2015775, 2016030,
    1951005, 1885980, 1820955, 1755930, 1690905, 1625880, 1560855, 1495830, 1430805, 1365780,
    1300755, 1235730, 1170705, 1105680, 1040655, 975630, 910605, 845580, 780555, 715530, 650505,
    585480, 520455, 455430, 390405, 325380, 260355, 195330, 130305, 65280, 16384] := by
  decide

theorem mulCap_lt : ∀ d ∈ mulCap, d < 2 ^ 32 := by
  rw [mulCap_eq]
  decide

theorem nats_mulWords {x y : Fe25519} (hx : Loose x) (hy : Loose y) :
    nats (mulWords x y) = accumulate (List.replicate 63 0)
        (products (fun _ => true) (nats x.v) (nats y.v)) ∧
      LimbsLe (nats (mulWords x y)) mulCap := by
  have hzero : nats (List.replicate 63 0) = List.replicate 63 0 := by
    rw [nats, List.map_replicate]
    rfl
  have hle : LimbsLe (nats (List.replicate 63 0)) (List.replicate 63 0) := by
    rw [hzero]
    exact LimbsLe.refl _
  have h := nats_accumulate (p := fun _ => true) hle hx.le hy.le mulCap_lt
  rw [hzero] at h
  exact h

/-- The sums are the product. -/
theorem ofDigits_mulWords {x y : Fe25519} (hx : Loose x) (hy : Loose y) :
    Nat.ofDigits 256 (nats (mulWords x y)) = value x * value y := by
  rw [(nats_mulWords hx hy).1, ofDigits_accumulate, sum_products, ofDigits_replicate_zero,
    Nat.zero_add]
  · rfl
  · intro u hu
    have hindex := (products_index hu).1
    rw [length_nats, length_nats] at hindex
    rw [List.length_replicate]
    omega

/-- How far a product may be above `2 ^ 255`. -/
def mulSlack : Nat := 1558

theorem foldNat_mulCap_lt : ∀ i < 31, mulCap.getD i 0 + 38 * mulCap.getD (i + 32) 0 < 2 ^ 32 := by
  rw [mulCap_eq]
  decide

theorem passFits_mulCap : ∀ k < 2, PassFits (passCap^[k] (foldNat mulCap)) := by
  rw [mulCap_eq]
  decide

theorem passCap_mulCap : passCap^[2] (foldNat mulCap) = looseWords := by
  rw [mulCap_eq]
  decide

theorem ofDigits_mulCap :
    Nat.ofDigits 256 ((passCap (foldNat mulCap)).set 31 127) +
      19 * ((passCap (foldNat mulCap)).getD 31 0 / 128) < 2 ^ 255 + mulSlack := by
  rw [mulCap_eq]
  decide

/-- **`fe25519_mul`.**  No word overflows, and the words that it leaves stand for the product.  The
number in them may be as large as `2 ^ 255` and a little more. -/
theorem mul_spec {x y : Fe25519} (hx : Loose x) (hy : Loose y) :
    Loose (mul x y) ∧ (value (mul x y) : ZMod p) = value x * value y ∧
      value (mul x y) < 2 ^ 255 + mulSlack := by
  have hcap := (nats_mulWords hx hy).2
  have hfold := nats_foldWords hcap foldNat_mulCap_lt
  have hfoldCap : LimbsLe (nats (foldWords (mulWords x y))) (foldNat mulCap) := by
    rw [hfold]
    exact foldNat_le hcap
  obtain ⟨hpasses, hloose, hcast⟩ := iterate_reducePass 2 (length_foldWords _) hfoldCap
    passFits_mulCap
  have hvalue := ofDigits_foldNat (length_mulWords x y)
  rw [passCap_mulCap] at hloose
  refine ⟨hloose, ?_, ?_⟩
  · rw [value, mul, reduceMul, hcast, hfold, ← Nat.cast_mul, ← ofDigits_mulWords hx hy, ← hvalue,
      Nat.cast_add, Nat.cast_mul, Nat.cast_mul, ZMod.natCast_self, mul_zero, zero_mul, add_zero]
  · have hlen : (foldNat (nats (mulWords x y))).length = 32 := by
      rw [← hfold, List.length_map, length_foldWords]
    have hfirst := passNat_le (foldNat_le hcap)
    have hlt := ofDigits_passNat_lt (l := passNat (foldNat (nats (mulWords x y))))
      (by rw [passNat, length_carry, List.length_set, hlen]) hfirst
    rw [value, mul, reduceMul, hpasses, hfold]
    exact Nat.lt_of_le_of_lt hlt ofDigits_mulCap

/-! ## Addition and subtraction -/

/-- The words of a number that one more pass brings below `2 ^ 255`. -/
def normalWords : List Nat := List.replicate 31 255 ++ [254]

theorem looseWords_le : LimbsLe looseWords normalWords := by decide

theorem passNat_tight {l : List Nat} (h : LimbsLe l normalWords) :
    Nat.ofDigits 256 (passNat l) < 2 ^ 255 ∧ LimbsLe (passNat l) looseWords := by
  have hlen : l.length = 32 := h.length_eq
  have htop : l.getD 31 0 ≤ 254 := h.getD 31
  have hset := ofDigits_set 256 0 31 l (by omega)
  have hrest : Nat.ofDigits 256 (l.set 31 0) ≤ Nat.ofDigits 256 (normalWords.set 31 0) :=
    ofDigits_mono 256 (h.set 31 le_rfl)
  have hmax : Nat.ofDigits 256 (normalWords.set 31 0) = 256 ^ 31 - 1 := by decide
  have hpass := ofDigits_passNat hlen
  have hcap : passCap normalWords = looseWords := by decide
  refine ⟨?_, hcap ▸ passNat_le h⟩
  rw [p_eq] at hpass
  obtain hq | hq : l.getD 31 0 / 128 = 0 ∨ l.getD 31 0 / 128 = 1 := by omega
  · rw [hq] at hpass
    omega
  · rw [hq] at hpass
    omega

/-- **`reduce_add_sub`.**  When the first pass brings all words but the last below `256`, the number
ends below `2 ^ 255`. -/
theorem reduceAddSub_spec {v : List UInt32} {u : List Nat} (hlen : v.length = 32)
    (h : LimbsLe (nats v) u) (hfit : ∀ k < 4, PassFits (passCap^[k] u))
    (hcap : LimbsLe (passCap u) normalWords) :
    Tight (reduceAddSub v hlen) ∧
      (value (reduceAddSub v hlen) : ZMod p) = (Nat.ofDigits 256 (nats v) : Nat) := by
  obtain ⟨hpasses, -, hcast⟩ := iterate_reducePass 4 hlen h hfit
  have h1 : LimbsLe (passNat (nats v)) normalWords := (passNat_le h).trans hcap
  have h2 := (passNat_tight h1).2.trans looseWords_le
  have h3 := (passNat_tight h2).2.trans looseWords_le
  have h4 := passNat_tight h3
  refine ⟨⟨?_, ?_⟩, hcast⟩
  · rw [Loose, reduceAddSub, hpasses]
    exact h4.2
  · rw [value, reduceAddSub, hpasses]
    exact h4.1

theorem value_zipWith_add {x y : Fe25519} :
    Nat.ofDigits 256 ((nats x.v).zipWith (· + ·) (nats y.v)) = value x + value y :=
  (Nat.ofDigits_add_ofDigits_eq_ofDigits_zipWith_of_length_eq (by
    rw [length_nats, length_nats])).symm

/-- **`fe25519_add`.** -/
theorem add_spec {x y : Fe25519} (hx : Loose x) (hy : Loose y) :
    Tight (add x y) ∧ (value (add x y) : ZMod p) = value x + value y := by
  obtain ⟨hsum, hcap⟩ := nats_zipWith_add hx.le hy.le (by decide)
  have h := reduceAddSub_spec (by rw [List.length_zipWith, x.length_v, y.length_v, Nat.min_self])
    hcap (by decide) (by decide)
  refine ⟨h.1, ?_⟩
  rw [add, h.2, hsum, value_zipWith_add, Nat.cast_add]

theorem ofDigits_subWords : Nat.ofDigits 256 (nats subWords) = 2 * p := by
  rw [p_eq]
  decide

/-- **`fe25519_sub`.** -/
theorem sub_spec {x y : Fe25519} (hx : Loose x) (hy : Loose y) :
    Tight (sub x y) ∧ (value (sub x y) : ZMod p) = value x - value y := by
  have hwords : LimbsLe looseWords (nats subWords) := by decide
  obtain ⟨hsum, hcap⟩ := nats_zipWith_add hx.le (LimbsLe.refl (nats subWords)) (by decide)
  have hle : LimbsLe (nats subWords) (nats (x.v.zipWith (· + ·) subWords)) := by
    rw [hsum]
    exact limbsLe_zipWith_add (length_nats x)
  obtain ⟨hsub, hvalue⟩ := nats_zipWith_sub ((hy.le.trans hwords).trans hle)
  have h := reduceAddSub_spec (by
      rw [List.length_zipWith, List.length_zipWith, x.length_v, y.length_v]
      rfl)
    (hsub.trans hcap) (by decide) (by decide)
  have htotal : Nat.ofDigits 256 (nats (x.v.zipWith (· + ·) subWords)) = value x + 2 * p := by
    rw [hsum, ← ofDigits_subWords]
    exact (Nat.ofDigits_add_ofDigits_eq_ofDigits_zipWith_of_length_eq (length_nats x)).symm
  have hcast := congrArg (Nat.cast (R := ZMod p)) ((hvalue 256).trans htotal)
  rw [Nat.cast_add, Nat.cast_add, Nat.cast_mul, ZMod.natCast_self, mul_zero, add_zero] at hcast
  exact ⟨h.1, h.2.trans (eq_sub_of_add_eq hcast)⟩

/-! ## Overflows -/

/-- No word overflows on the way to a sum, a difference and a product: the words of the sums are
sums of numbers, nothing is subtracted that is not there, and no pass loses a carry. -/
structure Exact (x y : Fe25519) : Prop where
  sum : nats (x.v.zipWith (· + ·) y.v) = (nats x.v).zipWith (· + ·) (nats y.v)
  sumPass : ∀ k < 4, PassFits (nats (reducePass^[k] (x.v.zipWith (· + ·) y.v)))
  raised : nats (x.v.zipWith (· + ·) subWords) = (nats x.v).zipWith (· + ·) (nats subWords)
  borrow : LimbsLe (nats y.v) (nats (x.v.zipWith (· + ·) subWords))
  subPass : ∀ k < 4, PassFits (nats (reducePass^[k]
    ((x.v.zipWith (· + ·) subWords).zipWith (· - ·) y.v)))
  products : nats (mulWords x y) = accumulate (List.replicate 63 0)
    (products (fun _ => true) (nats x.v) (nats y.v))
  folded : nats (foldWords (mulWords x y)) = foldNat (nats (mulWords x y))
  mulPass : ∀ k < 2, PassFits (nats (reducePass^[k] (foldWords (mulWords x y))))

/-- **No word overflows.** -/
theorem exact_of_loose {x y : Fe25519} (hx : Loose x) (hy : Loose y) : Exact x y := by
  have hwords : LimbsLe looseWords (nats subWords) := by decide
  obtain ⟨hsum, hcap⟩ := nats_zipWith_add hx.le hy.le (by decide)
  obtain ⟨hraised, hraisedCap⟩ := nats_zipWith_add hx.le (LimbsLe.refl (nats subWords)) (by decide)
  have hle : LimbsLe (nats subWords) (nats (x.v.zipWith (· + ·) subWords)) := by
    rw [hraised]
    exact limbsLe_zipWith_add (length_nats x)
  have hborrow := (hy.le.trans hwords).trans hle
  have hsub := (nats_zipWith_sub hborrow).1.trans hraisedCap
  obtain ⟨hproducts, hmulCap⟩ := nats_mulWords hx hy
  have hfolded := nats_foldWords hmulCap foldNat_mulCap_lt
  have hfoldedCap : LimbsLe (nats (foldWords (mulWords x y))) (foldNat mulCap) := by
    rw [hfolded]
    exact foldNat_le hmulCap
  refine ⟨hsum, passFits_reducePass ?_ hcap (by decide), hraised, hborrow,
    passFits_reducePass ?_ hsub (by decide), hproducts, hfolded,
    passFits_reducePass (length_foldWords _) hfoldedCap passFits_mulCap⟩
  · rw [List.length_zipWith, x.length_v, y.length_v, Nat.min_self]
  · rw [List.length_zipWith, List.length_zipWith, x.length_v, y.length_v]
    rfl

/-! ## Residues -/

section Represents

variable {x y : Fe25519} {a b : ZMod p}

theorem Represents.mul (hx : Represents x a) (hy : Represents y b) :
    Represents (mul x y) (a * b) := by
  obtain ⟨hloose, hcast, -⟩ := mul_spec hx.loose hy.loose
  exact ⟨hloose, by rw [hcast, hx.cast, hy.cast]⟩

theorem Represents.square (hx : Represents x a) : Represents (square x) (a * a) := hx.mul hx

theorem Represents.add (hx : Represents x a) (hy : Represents y b) :
    Represents (add x y) (a + b) := by
  obtain ⟨htight, hcast⟩ := add_spec hx.loose hy.loose
  exact ⟨htight.loose, by rw [hcast, hx.cast, hy.cast]⟩

theorem Represents.sub (hx : Represents x a) (hy : Represents y b) :
    Represents (sub x y) (a - b) := by
  obtain ⟨htight, hcast⟩ := sub_spec hx.loose hy.loose
  exact ⟨htight.loose, by rw [hcast, hx.cast, hy.cast]⟩

theorem represents_setzero : Represents setzero 0 := by
  refine ⟨by decide, ?_⟩
  have hvalue : value setzero = 0 := by decide
  rw [hvalue, Nat.cast_zero]

theorem represents_setone : Represents setone 1 := by
  refine ⟨by decide, ?_⟩
  have hvalue : value setone = 1 := by decide
  rw [hvalue, Nat.cast_one]

theorem Represents.neg (hx : Represents x a) : Represents (neg x) (-a) := by
  rw [← zero_sub]
  exact represents_setzero.sub hx

theorem neg_tight (hx : Loose x) : Tight (neg x) := (sub_spec represents_setzero.loose hx).1

/-! ## Powers -/

theorem Represents.mul_pow {j k : Nat} (hx : Represents x (a ^ j)) (hy : Represents y (a ^ k)) :
    Represents (Fe25519.mul x y) (a ^ (j + k)) := by
  rw [pow_add]
  exact hx.mul hy

theorem Represents.square_pow {k : Nat} (hx : Represents x (a ^ k)) :
    Represents (Fe25519.square x) (a ^ (2 * k)) := by
  rw [two_mul]
  exact hx.mul_pow hx

theorem Represents.iterate_square {k : Nat} (hx : Represents x (a ^ k)) :
    ∀ n, Represents (Fe25519.square^[n] x) (a ^ (2 ^ n * k))
  | 0 => by rwa [pow_zero, one_mul]
  | n + 1 => by
    rw [Function.iterate_succ_apply', pow_succ', Nat.mul_assoc]
    exact (hx.iterate_square n).square_pow

/-- Two squares in every pass. -/
theorem Represents.iterate_square_square {k : Nat} (hx : Represents x (a ^ k)) (n : Nat) :
    Represents ((fun t => Fe25519.square (Fe25519.square t))^[n] x) (a ^ (2 ^ (2 * n) * k)) := by
  have htwo : (fun t => Fe25519.square (Fe25519.square t)) = Fe25519.square^[2] := rfl
  rw [htwo, ← Function.iterate_mul]
  exact hx.iterate_square (2 * n)

/-- **`fe25519_invert`** raises to the power `2 ^ 255 - 21`. -/
theorem Represents.invert (hx : Represents x a) : Represents (invert x) (a ^ (2 ^ 255 - 21)) := by
  have h1 : Represents x (a ^ 1) := by rwa [pow_one]
  have h2 := h1.square_pow
  have h9 := h2.square_pow.square_pow.mul_pow h1
  have h11 := h9.mul_pow h2
  have h5_0 := h11.square_pow.mul_pow h9
  have h10_0 := h5_0.square_pow.square_pow.square_pow.square_pow.square_pow.mul_pow h5_0
  have h20_0 := (h10_0.square_pow.square_pow.iterate_square_square 4).mul_pow h10_0
  have h40_0 := (h20_0.square_pow.square_pow.iterate_square_square 9).mul_pow h20_0
  have h50_0 := (h40_0.square_pow.square_pow.iterate_square_square 4).mul_pow h10_0
  have h100_0 := (h50_0.square_pow.square_pow.iterate_square_square 24).mul_pow h50_0
  have h200_0 := (h100_0.square_pow.square_pow.iterate_square_square 49).mul_pow h100_0
  have h250_0 := (h200_0.square_pow.square_pow.iterate_square_square 24).mul_pow h50_0
  have h255 := h250_0.square_pow.square_pow.square_pow.square_pow.square_pow.mul_pow h11
  exact h255

/-- **`fe25519_pow2523`** raises to the power `2 ^ 252 - 3`. -/
theorem Represents.pow2523 (hx : Represents x a) :
    Represents (pow2523 x) (a ^ (2 ^ 252 - 3)) := by
  have h1 : Represents x (a ^ 1) := by rwa [pow_one]
  have h2 := h1.square_pow
  have h9 := h2.square_pow.square_pow.mul_pow h1
  have h11 := h9.mul_pow h2
  have h5_0 := h11.square_pow.mul_pow h9
  have h10_0 := (h5_0.square_pow.iterate_square 4).mul_pow h5_0
  have h20_0 := (h10_0.square_pow.iterate_square 9).mul_pow h10_0
  have h40_0 := (h20_0.square_pow.iterate_square 19).mul_pow h20_0
  have h50_0 := (h40_0.square_pow.iterate_square 9).mul_pow h10_0
  have h100_0 := (h50_0.square_pow.iterate_square 49).mul_pow h50_0
  have h200_0 := (h100_0.square_pow.iterate_square 99).mul_pow h100_0
  have h250_0 := (h200_0.square_pow.iterate_square 49).mul_pow h50_0
  have h252 := h250_0.square_pow.square_pow.mul_pow h1
  exact h252

end Represents

end Fe25519
end Zedboard
