import Mathlib.Data.List.Prime
import Mathlib.NumberTheory.LucasPrimality
import Mathlib.Tactic.NormNum.Prime

/-!
# Large primes

Powers modulo a number by squaring, for the kernel to evaluate, and Lucas's test: a number is prime
if some residue has exactly the order that it has to have, and the prime factors of that order are
known.
-/

set_option autoImplicit false

namespace Zedboard

/-- `r * b ^ n` modulo `m`, for exponents of at most `k` bits. -/
def powMod (m : Nat) : Nat → Nat → Nat → Nat → Nat
  | 0, r, _, _ => r % m
  | k + 1, r, b, n => powMod m k (if n % 2 = 1 then r * b % m else r) (b * b % m) (n / 2)

theorem powMod_eq (m : Nat) : ∀ {k r b n : Nat}, n < 2 ^ k → powMod m k r b n = r * b ^ n % m
  | 0, r, b, n, h => by
    have hn : n = 0 := Nat.lt_one_iff.1 h
    rw [hn, pow_zero, Nat.mul_one, powMod]
  | k + 1, r, b, n, h => by
    have hhalf : n / 2 < 2 ^ k := by
      rw [pow_succ] at h
      omega
    have hsq : (b * b % m) ^ (n / 2) % m = b ^ (2 * (n / 2)) % m := by
      rw [← Nat.pow_mod, pow_mul, sq]
    rw [powMod, powMod_eq m hhalf]
    rcases Nat.mod_two_eq_zero_or_one n with hn | hn
    · have hdouble : 2 * (n / 2) = n := by omega
      rw [if_neg (by omega), Nat.mul_mod, hsq, hdouble, ← Nat.mul_mod]
    · have hodd : 2 * (n / 2) + 1 = n := by omega
      rw [if_pos hn, Nat.mul_mod, hsq, Nat.mod_mod, ← Nat.mul_mod, Nat.mul_assoc, ← pow_succ', hodd]

theorem natCast_pow_eq_one_iff {m : Nat} (hm : 2 ≤ m) {k : Nat} (b n : Nat) (h : n < 2 ^ k) :
    (b : ZMod m) ^ n = 1 ↔ powMod m k 1 b n = 1 := by
  rw [← Nat.cast_pow, ← Nat.cast_one, ZMod.natCast_eq_natCast_iff', powMod_eq m h, Nat.one_mul,
    Nat.mod_eq_of_lt (show 1 < m from hm)]

/-- **Lucas's test**, with the residue `a` and the prime factors `qs` of `m - 1`. -/
theorem prime_of_lucas {m a : Nat} (k : Nat) (qs : List Nat) (hm : 2 ≤ m) (hk : m ≤ 2 ^ k)
    (hprime : ∀ q ∈ qs, q.Prime) (hprod : qs.prod = m - 1)
    (hone : powMod m k 1 a (m - 1) = 1)
    (hne : ∀ q ∈ qs, powMod m k 1 a ((m - 1) / q) ≠ 1) : m.Prime := by
  refine lucas_primality m a ((natCast_pow_eq_one_iff hm a _ (by omega)).2 hone) ?_
  intro q hq hdvd
  rw [← hprod, Prime.dvd_prod_iff hq.prime] at hdvd
  obtain ⟨r, hr, hqr⟩ := hdvd
  rw [(Nat.prime_dvd_prime_iff_eq hq (hprime r hr)).1 hqr]
  have hlt : (m - 1) / r < 2 ^ k := Nat.lt_of_le_of_lt (Nat.div_le_self _ _) (by omega)
  exact fun h => hne r hr ((natCast_pow_eq_one_iff hm a _ hlt).1 h)

end Zedboard
