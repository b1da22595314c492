import Mathlib.Data.List.Forall2
import Mathlib.Data.Nat.Digits.Lemmas
import Mathlib.Data.UInt
import Mathlib.Tactic.LinearCombination
import Mathlib.Tactic.Ring

/-!
# Numbers in limbs that may overflow their base

A number is a list of limbs, least significant first, and `Nat.ofDigits` is its value; a limb may be
larger than the base.  Two loops work on such numbers: `carry` hands what a limb has too much on to
the next one, and `accumulate` adds to limbs anywhere, as a multiplication does.  Both keep track of
the value (`ofDigits_carry`, `ofDigits_accumulate`).

The machine has words instead of numbers.  Every limb is bounded by the limb of a fixed list, and
the loops are monotone in all limbs (`carry_le`, `accumulate_le`), so that a single evaluation on
the bounds says that no word overflows, for all inputs.
-/

set_option autoImplicit false

namespace Zedboard

/-- Limb by limb. -/
abbrev LimbsLe (l u : List Nat) : Prop := List.Forall₂ (· ≤ ·) l u

theorem LimbsLe.refl (l : List Nat) : LimbsLe l l := List.forall₂_refl l

theorem LimbsLe.trans {l u w : List Nat} (h : LimbsLe l u) (h' : LimbsLe u w) : LimbsLe l w := by
  induction h generalizing w with
  | nil => exact h'
  | cons hle _ ih =>
    cases h' with
    | cons hle' h' => exact .cons (hle.trans hle') (ih h')

theorem ofDigits_mono (b : Nat) {l u : List Nat} (h : LimbsLe l u) :
    Nat.ofDigits b l ≤ Nat.ofDigits b u := by
  induction h with
  | nil => exact le_rfl
  | cons hle _ ih =>
    rw [Nat.ofDigits_cons, Nat.ofDigits_cons]
    exact Nat.add_le_add hle (Nat.mul_le_mul_left b ih)

theorem ofDigits_replicate_zero (b n : Nat) : Nat.ofDigits b (List.replicate n 0) = 0 := by
  induction n with
  | zero => rfl
  | succ n ih => rw [List.replicate_succ, Nat.ofDigits_cons, ih, Nat.mul_zero]

theorem ofDigits_set (b x : Nat) : ∀ (k : Nat) (l : List Nat), k < l.length →
    Nat.ofDigits b (l.set k x) + b ^ k * l.getD k 0 = Nat.ofDigits b l + b ^ k * x
  | 0, a :: l, _ => by
    rw [List.set_cons_zero, Nat.ofDigits_cons, Nat.ofDigits_cons, List.getD_cons_zero]
    ring
  | k + 1, a :: l, h => by
    have ih := ofDigits_set b x k l (Nat.lt_of_succ_lt_succ h)
    rw [List.set_cons_succ, Nat.ofDigits_cons, Nat.ofDigits_cons, List.getD_cons_succ, pow_succ']
    linear_combination b * ih

theorem ofDigits_map_add {ι : Type*} (b : Nat) (f g : ι → Nat) (l : List ι) :
    Nat.ofDigits b (l.map fun i => f i + g i) =
      Nat.ofDigits b (l.map f) + Nat.ofDigits b (l.map g) := by
  induction l with
  | nil => rfl
  | cons i l ih =>
    rw [List.map_cons, List.map_cons, List.map_cons, Nat.ofDigits_cons, Nat.ofDigits_cons,
      Nat.ofDigits_cons, ih]
    ring

theorem ofDigits_map_mul {ι : Type*} (b c : Nat) (f : ι → Nat) (l : List ι) :
    Nat.ofDigits b (l.map fun i => c * f i) = c * Nat.ofDigits b (l.map f) := by
  induction l with
  | nil => exact (Nat.mul_zero c).symm
  | cons i l ih =>
    rw [List.map_cons, List.map_cons, Nat.ofDigits_cons, Nat.ofDigits_cons, ih]
    ring

/-- A run of limbs, read one by one. -/
theorem map_range_getD {α : Type*} (d : α) {l : List α} {k n : Nat} (h : k + n ≤ l.length) :
    (List.range n).map (fun i => l.getD (k + i) d) = (l.drop k).take n := by
  refine List.ext_getElem (by simp; omega) fun i h1 h2 => ?_
  rw [List.length_map, List.length_range] at h1
  rw [List.getElem_map, List.getElem_range, List.getD_eq_getElem?_getD,
    List.getElem?_eq_getElem (by omega), Option.getD_some, List.getElem_take, List.getElem_drop]

theorem LimbsLe.getD {l u : List Nat} (h : LimbsLe l u) (k : Nat) : l.getD k 0 ≤ u.getD k 0 := by
  induction h generalizing k with
  | nil => exact le_rfl
  | cons hle _ ih =>
    cases k with
    | zero => exact hle
    | succ k => exact ih k

theorem LimbsLe.set {l u : List Nat} (h : LimbsLe l u) (k : Nat) {x y : Nat} (hxy : x ≤ y) :
    LimbsLe (l.set k x) (u.set k y) := by
  induction h generalizing k with
  | nil => exact .nil
  | cons hle ht ih =>
    cases k with
    | zero => exact .cons hxy ht
    | succ k => exact .cons hle (ih k)

/-! ## Carries -/

/-- Add `t` to the first limb, and hand on from every limb but the last what does not fit in. -/
def carry (b : Nat) : Nat → List Nat → List Nat
  | _, [] => []
  | t, [a] => [a + t]
  | t, a :: c :: l => (a + t) % b :: carry b ((a + t) / b) (c :: l)

theorem length_carry (b : Nat) : ∀ (t : Nat) (l : List Nat), (carry b t l).length = l.length
  | _, [] => rfl
  | _, [_] => rfl
  | t, a :: c :: l => by
    rw [carry, List.length_cons, length_carry b _ (c :: l)]
    rfl

/-- **Carrying keeps the value.** -/
theorem ofDigits_carry (b : Nat) : ∀ (t : Nat) (l : List Nat), l ≠ [] →
    Nat.ofDigits b (carry b t l) = Nat.ofDigits b l + t
  | t, [a], _ => by
    rw [carry, Nat.ofDigits_singleton, Nat.ofDigits_singleton]
  | t, a :: c :: l, _ => by
    have hdiv := Nat.mod_add_div (a + t) b
    have hcons : Nat.ofDigits b (a :: c :: l) = a + b * Nat.ofDigits b (c :: l) := rfl
    rw [carry, Nat.ofDigits_cons, ofDigits_carry b _ (c :: l) (List.cons_ne_nil _ _), hcons,
      Nat.mul_add]
    omega

/-- Upper bounds for the limbs after the carries, from upper bounds for those before. -/
def carryCap (b : Nat) : Nat → List Nat → List Nat
  | _, [] => []
  | t, [a] => [a + t]
  | t, a :: c :: l => min (b - 1) (a + t) :: carryCap b ((a + t) / b) (c :: l)

theorem carry_le {b : Nat} (hb : 0 < b) : ∀ {t t' : Nat} {l u : List Nat}, t ≤ t' → LimbsLe l u →
    LimbsLe (carry b t l) (carryCap b t' u)
  | _, _, [], _, _, .nil => .nil
  | _, _, [_], _, ht, .cons ha .nil => .cons (Nat.add_le_add ha ht) .nil
  | _, _, _ :: _ :: _, _, ht, .cons ha (.cons hc h) => by
    refine .cons (Nat.le_min.2 ⟨Nat.le_sub_one_of_lt (Nat.mod_lt _ hb), ?_⟩) ?_
    · exact (Nat.mod_le _ _).trans (Nat.add_le_add ha ht)
    · exact carry_le hb (Nat.div_le_div_right (Nat.add_le_add ha ht)) (.cons hc h)

/-- Every sum on the way is less than `m`. -/
def Fits (m b : Nat) : Nat → List Nat → Prop
  | _, [] => True
  | t, a :: l => a + t < m ∧ Fits m b ((a + t) / b) l

instance Fits.decidable (m b : Nat) : ∀ (t : Nat) (l : List Nat), Decidable (Fits m b t l)
  | _, [] => .isTrue trivial
  | t, a :: l => @instDecidableAnd _ _ _ (Fits.decidable m b ((a + t) / b) l)

theorem Fits.mono {m b : Nat} : ∀ {t t' : Nat} {l u : List Nat}, Fits m b t' u → t ≤ t' →
    LimbsLe l u → Fits m b t l
  | _, _, [], _, _, _, .nil => trivial
  | _, _, _ :: _, _, h, ht, .cons ha hl =>
    ⟨Nat.lt_of_le_of_lt (Nat.add_le_add ha ht) h.1,
      h.2.mono (Nat.div_le_div_right (Nat.add_le_add ha ht)) hl⟩

/-- All limbs but the last are digits. -/
theorem carry_dropLast_lt {b : Nat} (hb : 0 < b) : ∀ {t : Nat} {l : List Nat},
    ∀ d ∈ (carry b t l).dropLast, d < b
  | _, [], d, hd => by simp [carry] at hd
  | _, [_], d, hd => by simp [carry] at hd
  | t, a :: c :: l, d, hd => by
    have hne : carry b ((a + t) / b) (c :: l) ≠ [] := by
      rw [Ne, ← List.length_eq_zero_iff, length_carry]
      simp
    rw [carry, List.dropLast_cons_of_ne_nil hne, List.mem_cons] at hd
    rcases hd with rfl | hd
    · exact Nat.mod_lt _ hb
    · exact carry_dropLast_lt hb d hd

/-! ### In words -/

/-- The limbs as numbers. -/
abbrev nats (l : List UInt32) : List Nat := l.map UInt32.toNat

theorem toNat_getD (v : List UInt32) (k : Nat) : (v.getD k 0).toNat = (nats v).getD k 0 := by
  rw [List.getD_eq_getElem?_getD, List.getD_eq_getElem?_getD, List.getElem?_map]
  cases v[k]? <;> rfl

/-- The loop of carries on words, in base `2 ^ 8`. -/
def carryLoop : UInt32 → List UInt32 → List UInt32
  | _, [] => []
  | t, [a] => [a + t]
  | t, a :: c :: l => ((a + t) &&& 255) :: carryLoop ((a + t) >>> 8) (c :: l)

@[simp] theorem length_carryLoop : ∀ (t : UInt32) (l : List UInt32),
    (carryLoop t l).length = l.length
  | _, [] => rfl
  | _, [_] => rfl
  | t, a :: c :: l => by
    rw [carryLoop, List.length_cons, length_carryLoop _ (c :: l)]
    rfl

theorem toNat_and_255 (x : UInt32) : (x &&& 255).toNat = x.toNat % 256 := by
  rw [UInt32.toNat_and]
  exact Nat.and_two_pow_sub_one_eq_mod _ 8

theorem toNat_shiftRight_8 (x : UInt32) : (x >>> 8).toNat = x.toNat / 256 := by
  rw [UInt32.toNat_shiftRight]
  exact Nat.shiftRight_eq_div_pow _ 8

theorem toNat_add_of_lt {x y : UInt32} (h : x.toNat + y.toNat < 2 ^ 32) :
    (x + y).toNat = x.toNat + y.toNat := by
  rw [UInt32.toNat_add, Nat.mod_eq_of_lt h]

/-- Where nothing overflows, the loop carries. -/
theorem nats_carryLoop : ∀ {t : UInt32} {l : List UInt32}, Fits (2 ^ 32) 256 t.toNat (nats l) →
    nats (carryLoop t l) = carry 256 t.toNat (nats l)
  | _, [], _ => rfl
  | _, [_], h => by
    rw [carryLoop, nats, List.map_cons, toNat_add_of_lt h.1]
    rfl
  | t, a :: c :: l, h => by
    have hsum : (a + t).toNat = a.toNat + t.toNat := toNat_add_of_lt h.1
    have hrest : nats (carryLoop ((a + t) >>> 8) (c :: l)) =
        carry 256 ((a.toNat + t.toNat) / 256) (nats (c :: l)) := by
      rw [nats_carryLoop, toNat_shiftRight_8, hsum]
      rw [toNat_shiftRight_8, hsum]
      exact h.2
    rw [carryLoop, nats, List.map_cons, ← nats, hrest, toNat_and_255, hsum]
    rfl

theorem limbsLe_zipWith_add : ∀ {l u : List Nat}, l.length = u.length →
    LimbsLe u (l.zipWith (· + ·) u)
  | [], [], _ => .nil
  | a :: _, c :: _, h =>
    .cons (Nat.le_add_left c a) (limbsLe_zipWith_add (Nat.succ.inj h))

theorem nats_zipWith_add {x y : List UInt32} {x' y' : List Nat} (hx : LimbsLe (nats x) x')
    (hy : LimbsLe (nats y) y') (hfit : ∀ d ∈ x'.zipWith (· + ·) y', d < 2 ^ 32) :
    nats (x.zipWith (· + ·) y) = (nats x).zipWith (· + ·) (nats y) ∧
      LimbsLe (nats (x.zipWith (· + ·) y)) (x'.zipWith (· + ·) y') := by
  induction x generalizing y x' y' with
  | nil =>
    cases hx
    exact ⟨rfl, .nil⟩
  | cons a x ih =>
    cases y with
    | nil =>
      cases hx
      cases hy
      exact ⟨rfl, .nil⟩
    | cons c y =>
      cases hx with
      | @cons _ a' _ _ ha hx =>
      cases hy with
      | @cons _ c' _ _ hc hy =>
      have hlt : a' + c' < 2 ^ 32 := hfit _ (by simp)
      have ih := ih hx hy fun d hd => hfit d (List.mem_cons_of_mem _ hd)
      have hsum : (a + c).toNat = a.toNat + c.toNat := toNat_add_of_lt (by omega)
      refine ⟨congrArg₂ _ hsum ih.1, .cons ?_ ih.2⟩
      rw [hsum]
      exact Nat.add_le_add ha hc

/-- Where no limb is less than what is subtracted from it, nothing is borrowed. -/
theorem nats_zipWith_sub {t y : List UInt32} (h : LimbsLe (nats y) (nats t)) :
    LimbsLe (nats (t.zipWith (· - ·) y)) (nats t) ∧
      ∀ b : Nat, Nat.ofDigits b (nats (t.zipWith (· - ·) y)) + Nat.ofDigits b (nats y) =
        Nat.ofDigits b (nats t) := by
  induction t generalizing y with
  | nil =>
    cases y with
    | nil => exact ⟨.nil, fun b => rfl⟩
    | cons c y => cases h
  | cons a t ih =>
    cases y with
    | nil => cases h
    | cons c y =>
      cases h with
      | cons hc h =>
      have ih := ih h
      have hsub : (a - c).toNat = a.toNat - c.toNat := UInt32.toNat_sub_of_le a c hc
      refine ⟨.cons ?_ ih.1, fun b => ?_⟩
      · rw [hsub]
        exact Nat.sub_le _ _
      · have hb := ih.2 b
        simp only [nats, List.zipWith_cons_cons, List.map_cons, Nat.ofDigits_cons] at hb ⊢
        rw [hsub, ← hb, Nat.mul_add]
        omega

/-! ## Sums of products -/

/-- Add every number to the limb that it goes with. -/
def accumulate {α : Type*} [Add α] (t : List α) (us : List (Nat × α)) : List α :=
  us.foldl (fun t u => t.modify u.1 (· + u.2)) t

section Accumulate

variable {α : Type*} [Add α]

theorem accumulate_cons (t : List α) (u : Nat × α) (us : List (Nat × α)) :
    accumulate t (u :: us) = accumulate (t.modify u.1 (· + u.2)) us := rfl

@[simp] theorem length_accumulate : ∀ (us : List (Nat × α)) (t : List α),
    (accumulate t us).length = t.length
  | [], _ => rfl
  | u :: us, t => by rw [accumulate_cons, length_accumulate us, List.length_modify]

/-- A homomorphism may be applied before or after. -/
theorem map_accumulate {β : Type*} [Add β] {f : α → β} (hf : ∀ x y, f (x + y) = f x + f y) :
    ∀ (us : List (Nat × α)) (t : List α),
      (accumulate t us).map f = accumulate (t.map f) (us.map fun u => (u.1, f u.2))
  | [], _ => rfl
  | u :: us, t => by
    have hmodify : (t.modify u.1 (· + u.2)).map f = (t.map f).modify u.1 (· + f u.2) := by
      refine List.ext_getElem? fun i => ?_
      rw [List.getElem?_map, List.getElem?_modify, List.getElem?_modify, List.getElem?_map]
      cases t[i]? with
      | none => rfl
      | some x =>
        simp only [Option.map_some, Option.map_eq_map]
        by_cases hi : u.1 = i
        · rw [if_pos hi, if_pos hi, hf]
        · rw [if_neg hi, if_neg hi]
    rw [accumulate_cons, map_accumulate hf us, hmodify, List.map_cons, accumulate_cons]

end Accumulate

theorem ofDigits_modify (b c : Nat) : ∀ (k : Nat) (t : List Nat), k < t.length →
    Nat.ofDigits b (t.modify k (· + c)) = Nat.ofDigits b t + b ^ k * c
  | 0, a :: t, _ => by
    rw [List.modify_zero_cons, Nat.ofDigits_cons, Nat.ofDigits_cons]
    ring
  | k + 1, a :: t, h => by
    rw [List.modify_succ_cons, Nat.ofDigits_cons, Nat.ofDigits_cons,
      ofDigits_modify b c k t (Nat.lt_of_succ_lt_succ h)]
    ring

/-- **Accumulating adds**, each number with the weight of its limb. -/
theorem ofDigits_accumulate (b : Nat) : ∀ (us : List (Nat × Nat)) (t : List Nat),
    (∀ u ∈ us, u.1 < t.length) →
      Nat.ofDigits b (accumulate t us) =
        Nat.ofDigits b t + (us.map fun u => b ^ u.1 * u.2).sum
  | [], _, _ => rfl
  | u :: us, t, h => by
    rw [accumulate_cons, ofDigits_accumulate b us _ fun v hv => by
        rw [List.length_modify]
        exact h v (List.mem_cons_of_mem _ hv),
      ofDigits_modify b _ _ _ (h u (by simp)), List.map_cons, List.sum_cons, Nat.add_assoc]

/-- The same limbs, with numbers that are at most as large. -/
abbrev UpdatesLe (us vs : List (Nat × Nat)) : Prop :=
  List.Forall₂ (fun u v => u.1 = v.1 ∧ u.2 ≤ v.2) us vs

theorem accumulate_le {us vs : List (Nat × Nat)} (h : UpdatesLe us vs) :
    ∀ {t t' : List Nat}, LimbsLe t t' → LimbsLe (accumulate t us) (accumulate t' vs) := by
  induction h with
  | nil => exact fun ht => ht
  | @cons u v us vs huv _ ih =>
    intro t t' ht
    rw [accumulate_cons, accumulate_cons]
    refine ih (List.forall₂_iff_get.2 ⟨?_, fun i hi hi' => ?_⟩)
    · rw [List.length_modify, List.length_modify, ht.length_eq]
    · simp only [List.get_eq_getElem, List.getElem_modify, huv.1]
      have hi₁ : i < t.length := by simpa using hi
      have hi₂ : i < t'.length := by simpa using hi'
      have hle : t[i] ≤ t'[i] := ht.get hi₁ hi₂
      split
      · exact Nat.add_le_add hle huv.2
      · exact hle

/-- The products of the limbs of `x` and `y`, each with the limb that it belongs to, where `p` wants
that limb. -/
def products {α : Type*} [Mul α] [Zero α] (p : Nat → Bool) (x y : List α) : List (Nat × α) :=
  (List.range x.length).flatMap fun i =>
    ((List.range y.length).filter fun j => p (i + j)).map fun j =>
      (i + j, x.getD i 0 * y.getD j 0)

theorem products_le {p : Nat → Bool} {x x' y y' : List Nat} (hx : LimbsLe x x')
    (hy : LimbsLe y y') : UpdatesLe (products p x y) (products p x' y') := by
  rw [products, products, hx.length_eq, hy.length_eq, List.flatMap_def, List.flatMap_def]
  refine List.rel_flatten (List.forall₂_map_left_iff.2 (List.forall₂_map_right_iff.2
    (List.forall₂_same.2 fun i _ => ?_)))
  exact List.forall₂_map_left_iff.2 (List.forall₂_map_right_iff.2
    (List.forall₂_same.2 fun j _ => ⟨rfl, Nat.mul_le_mul (hx.getD i) (hy.getD j)⟩))

theorem products_index {p : Nat → Bool} {x y : List Nat} {u : Nat × Nat}
    (h : u ∈ products p x y) : u.1 + 2 ≤ x.length + y.length ∧ p u.1 = true := by
  simp only [products, List.mem_flatMap, List.mem_map, List.mem_filter, List.mem_range] at h
  obtain ⟨i, hi, j, ⟨hj, hp⟩, rfl⟩ := h
  exact ⟨by simp only; omega, hp⟩

/-- Some of the products are a part of all of them. -/
theorem products_eq_filter {α : Type*} [Mul α] [Zero α] (p : Nat → Bool) (x y : List α) :
    products p x y = (products (fun _ => true) x y).filter fun u => p u.1 := by
  rw [products, products, List.filter_flatMap]
  refine List.flatMap_congr fun i _ => ?_
  rw [List.filter_true, List.filter_map]
  rfl

theorem sum_filter_add_sum_filter_not {ι : Type*} (p : ι → Bool) (f : ι → Nat) (l : List ι) :
    ((l.filter p).map f).sum + ((l.filter fun i => !p i).map f).sum = (l.map f).sum := by
  induction l with
  | nil => rfl
  | cons i l ih =>
    rw [List.map_cons, List.sum_cons, ← ih]
    cases hp : p i
    · rw [List.filter_cons_of_neg (by simp [hp]), List.filter_cons_of_pos (by simp [hp]),
        List.map_cons, List.sum_cons]
      omega
    · rw [List.filter_cons_of_pos hp, List.filter_cons_of_neg (by simp [hp]), List.map_cons,
        List.sum_cons]
      omega

theorem ofDigits_eq_sum (b : Nat) : ∀ x : List Nat,
    Nat.ofDigits b x = ((List.range x.length).map fun i => b ^ i * x.getD i 0).sum
  | [] => rfl
  | a :: x => by
    rw [Nat.ofDigits_cons, ofDigits_eq_sum b x, List.length_cons, List.range_succ_eq_map,
      List.map_cons, List.sum_cons, List.map_map, ← List.sum_map_mul_left]
    refine congrArg₂ _ (by simp) (congrArg List.sum (List.map_congr_left fun i _ => ?_))
    rw [Function.comp_apply, List.getD_cons_succ, pow_succ']
    ring

/-- All products together are the product. -/
theorem sum_products (b : Nat) (x y : List Nat) :
    ((products (fun _ => true) x y).map fun u => b ^ u.1 * u.2).sum =
      Nat.ofDigits b x * Nat.ofDigits b y := by
  rw [ofDigits_eq_sum b x, ofDigits_eq_sum b y, products, List.map_flatMap, List.flatMap_def,
    List.sum_flatten, List.map_map, ← List.sum_map_mul_right]
  refine congrArg List.sum (List.map_congr_left fun i _ => ?_)
  rw [Function.comp_apply, List.filter_true, List.map_map, ← List.sum_map_mul_left]
  refine congrArg List.sum (List.map_congr_left fun j _ => ?_)
  rw [Function.comp_apply, pow_add]
  ring

/-- The products that are wanted and the others together are the product. -/
theorem sum_products_add (b : Nat) (p : Nat → Bool) (x y : List Nat) :
    ((products p x y).map fun u => b ^ u.1 * u.2).sum +
        ((products (fun k => !p k) x y).map fun u => b ^ u.1 * u.2).sum =
      Nat.ofDigits b x * Nat.ofDigits b y := by
  rw [products_eq_filter p, products_eq_filter fun k => !p k,
    sum_filter_add_sum_filter_not fun u : Nat × Nat => p u.1, sum_products]

/-- Products that go high up are a multiple of the weight of the lowest limb. -/
theorem dvd_sum_products {b k : Nat} {p : Nat → Bool} (hp : ∀ i, p i = true → k ≤ i)
    (x y : List Nat) : b ^ k ∣ ((products p x y).map fun u => b ^ u.1 * u.2).sum := by
  refine List.dvd_sum fun t ht => ?_
  obtain ⟨u, hu, rfl⟩ := List.mem_map.1 ht
  exact Dvd.dvd.mul_right (pow_dvd_pow b (hp u.1 (products_index hu).2)) _

/-- Limbs that nothing is added to stay. -/
theorem take_accumulate {α : Type*} [Add α] {k : Nat} : ∀ {us : List (Nat × α)} (t : List α),
    (∀ u ∈ us, k ≤ u.1) → (accumulate t us).take k = t.take k
  | [], _, _ => rfl
  | u :: us, t, h => by
    have hu : k ≤ u.1 := h u (by simp)
    rw [accumulate_cons, take_accumulate _ fun v hv => h v (List.mem_cons_of_mem u hv)]
    refine List.ext_getElem? fun i => ?_
    rw [List.getElem?_take, List.getElem?_take, List.getElem?_modify]
    split
    · have hne : u.1 ≠ i := by omega
      simp [hne]
    · rfl

/-! ### In words -/

theorem map_products {α β : Type*} [Mul α] [Zero α] [Mul β] [Zero β] {f : α → β} (h0 : f 0 = 0)
    (hf : ∀ x y, f (x * y) = f x * f y) (p : Nat → Bool) (x y : List α) :
    (products p x y).map (fun u => (u.1, f u.2)) = products p (x.map f) (y.map f) := by
  have hget : ∀ (l : List α) i, f (l.getD i 0) = (l.map f).getD i 0 := by
    intro l i
    rw [List.getD_eq_getElem?_getD, List.getD_eq_getElem?_getD, List.getElem?_map]
    cases l[i]? with
    | none => exact h0
    | some x => rfl
  rw [products, products, List.map_flatMap, List.length_map, List.length_map]
  refine List.flatMap_congr fun i _ => ?_
  rw [List.map_map]
  refine List.map_congr_left fun j _ => ?_
  rw [Function.comp_apply, hf, hget, hget]

theorem map_ofNat_nats (l : List UInt32) : (nats l).map UInt32.ofNat = l := by
  rw [nats, List.map_map, show UInt32.ofNat ∘ UInt32.toNat = id from
    funext fun x => UInt32.ofNat_toNat, List.map_id]

theorem nats_map_ofNat : ∀ {l : List Nat}, (∀ d ∈ l, d < 2 ^ 32) → nats (l.map UInt32.ofNat) = l
  | [], _ => rfl
  | d :: l, h => by
    have hd : d < 2 ^ 32 := h d (by simp)
    have hrest := nats_map_ofNat fun e he => h e (List.mem_cons_of_mem d he)
    rw [List.map_cons, nats, List.map_cons, UInt32.toNat_ofNat', Nat.mod_eq_of_lt hd, ← nats, hrest]

/-- **Accumulated words are the accumulated numbers**, where the bounds fit into words. -/
theorem nats_accumulate {p : Nat → Bool} {x y t : List UInt32} {x' y' t' : List Nat}
    (ht : LimbsLe (nats t) t') (hx : LimbsLe (nats x) x') (hy : LimbsLe (nats y) y')
    (hfit : ∀ d ∈ accumulate t' (products p x' y'), d < 2 ^ 32) :
    nats (accumulate t (products p x y)) =
        accumulate (nats t) (products p (nats x) (nats y)) ∧
      LimbsLe (nats (accumulate t (products p x y))) (accumulate t' (products p x' y')) := by
  have hle := accumulate_le (products_le (p := p) hx hy) ht
  have hsmall : ∀ d ∈ accumulate (nats t) (products p (nats x) (nats y)), d < 2 ^ 32 := by
    intro d hd
    obtain ⟨i, hi, rfl⟩ := List.getElem_of_mem hd
    have hi' := hle.length_eq ▸ hi
    exact Nat.lt_of_le_of_lt (hle.get hi hi') (hfit _ (List.getElem_mem hi'))
  have hwords : (accumulate (nats t) (products p (nats x) (nats y))).map UInt32.ofNat =
      accumulate t (products p x y) := by
    rw [map_accumulate UInt32.ofNat_add, map_products rfl UInt32.ofNat_mul, map_ofNat_nats,
      map_ofNat_nats, map_ofNat_nats]
  have hnats := nats_map_ofNat hsmall
  rw [hwords] at hnats
  exact ⟨hnats, hnats ▸ hle⟩

end Zedboard
