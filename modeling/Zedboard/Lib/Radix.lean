import Mathlib.Data.Nat.Digits.Lemmas

/-!
# Fixed-width numbers, digit by digit

A number of fixed width is a list of digits, least significant first, and `Nat.ofDigits` is its
value.  `ripple` adds to it in one pass, handing what is left to add from each digit to the next;
`ofDigits_ripple` is the specification of every such pass, whatever the base and the addend.

`getElem_eq_digit` reads a single digit back off the value, so that two lists of digits with the
same length and the same value are the same list.
-/

set_option autoImplicit false

namespace Zedboard

/-! ## Addition -/

/-- Add `n` to the number with the digits `ds` in base `b`.  The carry out of the last digit is
dropped. -/
def ripple (b : Nat) : List Nat → Nat → List Nat
  | [], _ => []
  | d :: ds, n => (d + n) % b :: ripple b ds ((d + n) / b)

/-- When there is nothing to add the pass may stop. -/
theorem ripple_zero {b : Nat} : ∀ {ds : List Nat}, (∀ d ∈ ds, d < b) → ripple b ds 0 = ds
  | [], _ => rfl
  | d :: ds, h => by
    have hd : d < b := h d (by simp)
    rw [ripple, Nat.add_zero, Nat.mod_eq_of_lt hd, Nat.div_eq_of_lt hd,
      ripple_zero fun x hx => h x (List.mem_cons_of_mem _ hx)]

/-- **One pass adds**, modulo the width. -/
theorem ofDigits_ripple {b : Nat} (hb : 0 < b) (ds : List Nat) : ∀ n,
    Nat.ofDigits b (ripple b ds n) = (Nat.ofDigits b ds + n) % b ^ ds.length := by
  induction ds with
  | nil => intro n; simp [ripple, Nat.mod_one]
  | cons d ds ih =>
    intro n
    have hsum : Nat.ofDigits b (d :: ds) + n = d + n + b * Nat.ofDigits b ds := by
      rw [Nat.ofDigits_cons]
      omega
    rw [ripple, Nat.ofDigits_cons, ih, hsum, List.length_cons, pow_succ', Nat.mod_mul,
      Nat.add_mul_mod_self_left, Nat.add_mul_div_left _ _ hb, Nat.add_comm (Nat.ofDigits b ds)]

/-! ## Single digits -/

/-- The digit of `n` at the place `k`. -/
def digit (b n k : Nat) : Nat := n / b ^ k % b

theorem digit_lt {b : Nat} (hb : 0 < b) (n k : Nat) : digit b n k < b := Nat.mod_lt _ hb

/-- The digits below the width do not see the number modulo the width. -/
theorem digit_mod {b w k : Nat} (hk : k < w) (n : Nat) : digit b (n % b ^ w) k = digit b n k := by
  obtain ⟨j, rfl⟩ : ∃ j, w = k + 1 + j := ⟨w - (k + 1), by omega⟩
  have hpow : b ^ (k + 1 + j) = b ^ k * (b * b ^ j) := by
    rw [pow_add, pow_succ, Nat.mul_assoc]
  rw [digit, digit, hpow, Nat.mod_mul_right_div_self, Nat.mod_mul_right_mod]

theorem getElem_eq_digit {b : Nat} : ∀ {ds : List Nat}, (∀ d ∈ ds, d < b) → ∀ {k : Nat}
    (hk : k < ds.length), ds[k] = digit b (Nat.ofDigits b ds) k
  | [], _, k, hk => by simp at hk
  | d :: ds, h, 0, _ => by
    have hd : d < b := h d (by simp)
    rw [digit, pow_zero, Nat.div_one, Nat.ofDigits_cons, Nat.add_mul_mod_self_left,
      Nat.mod_eq_of_lt hd]
    rfl
  | d :: ds, h, k + 1, hk => by
    have hd : d < b := h d (by simp)
    have hb : 0 < b := Nat.zero_lt_of_lt hd
    have hdiv : (d + b * Nat.ofDigits b ds) / b = Nat.ofDigits b ds := by
      rw [Nat.add_mul_div_left _ _ hb, Nat.div_eq_of_lt hd, Nat.zero_add]
    rw [List.getElem_cons_succ, getElem_eq_digit (fun x hx => h x (List.mem_cons_of_mem _ hx)),
      digit, digit, Nat.ofDigits_cons, pow_succ', ← Nat.div_div_eq_div_mul, hdiv]

/-- The digits of a digit. -/
theorem digit_digit {b k j : Nat} (hj : j < k) (n i : Nat) :
    digit b (digit (b ^ k) n i) j = digit b n (k * i + j) := by
  have hdigit : digit (b ^ k) n i = n / (b ^ k) ^ i % b ^ k := rfl
  rw [hdigit, digit_mod hj, digit, digit, ← pow_mul, Nat.div_div_eq_div_mul, ← pow_add]

/-- The digits below the width are the number modulo the width. -/
theorem ofDigits_map_digit (b n : Nat) : ∀ w,
    Nat.ofDigits b ((List.range w).map (digit b n)) = n % b ^ w
  | 0 => by rw [List.range_zero, List.map_nil, Nat.ofDigits_nil, pow_zero, Nat.mod_one]
  | w + 1 => by
    rw [List.range_succ, List.map_append, Nat.ofDigits_append, ofDigits_map_digit b n w,
      List.length_map, List.length_range, List.map_singleton, Nat.ofDigits_singleton, digit,
      pow_succ, Nat.mod_mul]

/-- A number of fixed width has one list of digits. -/
theorem eq_of_ofDigits_eq {b : Nat} {l r : List Nat} (hl : ∀ d ∈ l, d < b) (hr : ∀ d ∈ r, d < b)
    (hlen : l.length = r.length) (h : Nat.ofDigits b l = Nat.ofDigits b r) : l = r := by
  refine List.ext_getElem hlen fun k h1 h2 => ?_
  rw [getElem_eq_digit hl h1, getElem_eq_digit hr h2, h]

/-- Digits in base `b ^ k` are groups of `k` digits in base `b`. -/
theorem ofDigits_flatMap {α : Type*} {b k : Nat} {f : α → List Nat} (hlen : ∀ x, (f x).length = k)
    (l : List α) :
    Nat.ofDigits b (l.flatMap f) = Nat.ofDigits (b ^ k) (l.map fun x => Nat.ofDigits b (f x)) := by
  induction l with
  | nil => rfl
  | cons x l ih =>
    rw [List.flatMap_cons, Nat.ofDigits_append, hlen, ih, List.map_cons, Nat.ofDigits_cons]

/-- Regrouping: the same numbers, group by group, in two bases with a common power. -/
theorem ofDigits_flatMap_congr {α : Type*} {b c j k : Nat} (hpow : b ^ j = c ^ k) {l : List α}
    {f g : α → List Nat} (hf : ∀ x, (f x).length = j) (hg : ∀ x, (g x).length = k)
    (h : ∀ x ∈ l, Nat.ofDigits b (f x) = Nat.ofDigits c (g x)) :
    Nat.ofDigits b (l.flatMap f) = Nat.ofDigits c (l.flatMap g) := by
  rw [ofDigits_flatMap hf, ofDigits_flatMap hg, hpow, List.map_congr_left h]

/-- Low digits in two bases, and some more of the number above them. -/
theorem ofDigits_append_mod {b c m : Nat} {l l' t t' : List Nat} (hc : 1 < c)
    (hl' : ∀ d ∈ l', d < c) (hpow : b ^ l.length = c ^ l'.length)
    (hlow : Nat.ofDigits b l = Nat.ofDigits c l') (htop : Nat.ofDigits b t = Nat.ofDigits c t' % m) :
    Nat.ofDigits b (l ++ t) = Nat.ofDigits c (l' ++ t') % (c ^ l'.length * m) := by
  have hlt := Nat.ofDigits_lt_base_pow_length hc hl'
  rw [Nat.ofDigits_append, Nat.ofDigits_append, Nat.mod_mul, Nat.add_mul_mod_self_left,
    Nat.mod_eq_of_lt hlt, Nat.add_mul_div_left _ _ (Nat.zero_lt_of_lt hlt), Nat.div_eq_of_lt hlt,
    Nat.zero_add, hlow, htop, hpow]

end Zedboard
