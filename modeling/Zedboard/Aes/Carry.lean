import Mathlib.Data.Set.Function
import Zedboard.Aes.Defs

/-!
# When the software counters count

`addIvOpenssl` and `incrementIv` work on counters of any length, and this module says for which
values they are right.  The words of `addIvCipher` are right for all: none of its passes adds both
a number and a carry, so that a sum that wraps is less than the word it began with
(`addIvCipher_exact`).

* `addIvOpenssl` takes its addend as an `int`, so that a large one is negative and goes on changing
  the bytes above the fourth; and it misses a carry that meets a byte `0xff` of the addend.  It adds
  if and only if neither matters (`counter_addIvOpenssl_iff`).
* `incrementIv` goes on to the next byte when a byte becomes `0xff`, not only when it becomes `0`.
  Two of the `256` values of a byte carry, so that the low byte takes the others through their
  values twice as fast: `n` bytes are back after `2 ^ (7 * n + 1)` increments
  (`iterate_incrementIv_period`), too early for every `n` but one (`incrementIv_iff`).
-/

set_option autoImplicit false

namespace Zedboard

/-! ## The words -/

/-- The number in the words, `word_0` most significant, each with its bytes swapped. -/
def Words.number (w : Words) : Nat :=
  (bswap32 w.word0).toNat * 2 ^ 96 + (bswap32 w.word1).toNat * 2 ^ 64 +
    (bswap32 w.word2).toNat * 2 ^ 32 + (bswap32 w.word3).toNat

/-- It is the number in their bytes. -/
theorem number_eq (w : Words) : w.number = counter w.toBytes := by
  rw [counter_toBytes, Words.number]
  simp only [List.map_cons, List.map_nil, Nat.ofDigits_cons, Nat.ofDigits_nil]
  omega

/-- **The word loop of `addIvCipher` adds.**  Every pass that it makes adds a number or a carry, not
both, and finds the carry of the exact sum; the words that it does not come to stay as they are. -/
theorem addIvCipher_exact (c : FpgaAes) (num : UInt32) :
    (addIvCipher c num).ivIn.number = (c.ivIn.number + num.toNat) % 2 ^ 128 ∧
      (addIvCipher c num).ivIn.fromLast =
        (passes c.ivIn.fromLast num 0).map (fun p => bswap32 p.temp) ++
          c.ivIn.fromLast.drop (passes c.ivIn.fromLast num 0).length ∧
      ∀ p ∈ passes c.ivIn.fromLast num 0, (p.currentNum = 0 ∨ p.carry = 0) ∧
        p.temp.toNat + 2 ^ 32 * p.carryOut.toNat =
          p.orig.toNat + p.currentNum.toNat + p.carry.toNat := by
  refine ⟨?_, ?_, fun p hp => ?_⟩
  · have hpow : (2 : Nat) ^ 128 = 256 ^ 16 := by norm_num
    rw [number_eq, number_eq, hpow]
    exact counter_addWords c.ivIn num
  · rw [← addWordLoop_passes]
    exact fromLast_addWords c.ivIn num
  · have hregular := passes_regular c.ivIn.fromLast (by decide) (Or.inr rfl) p hp
    exact ⟨hregular.one, hregular.exact⟩

/-! ## The loop of `addIvOpenssl` -/

/-- The early exit changes nothing. -/
theorem addIvLoop_cons (low : UInt8) (rest : List UInt8) (z : Int) (c : UInt8) :
    addIvLoop (low :: rest) z c =
      (low + UInt8.ofInt z + c) ::
        addIvLoop rest (z >>> (8 : Nat)) (if low + UInt8.ofInt z + c < low then 1 else 0) := by
  rw [addIvLoop]
  split
  · rename_i h
    have hlow : low + UInt8.ofInt 0 + 0 = low := by
      rw [show UInt8.ofInt 0 = 0 from rfl, UInt8.add_zero, UInt8.add_zero]
    rw [h.1, h.2, hlow, if_neg (UInt8.lt_irrefl low)]
    exact congrArg _ (addIvLoop_zero rest).symm
  · rfl

theorem ofInt_eq_of_mod {z z' : Int} (h : z % 256 = z' % 256) : UInt8.ofInt z = UInt8.ofInt z' := by
  rw [UInt8.ofInt, UInt8.ofInt]
  exact congrArg (fun x : Int => UInt8.ofNat x.toNat) h

/-- Only the bytes of the addend that the counter has room for matter. -/
theorem addIvLoop_add_mul (l : List UInt8) : ∀ (z q : Int) (c : UInt8),
    addIvLoop l (z + 256 ^ l.length * q) c = addIvLoop l z c := by
  induction l with
  | nil => intros; rfl
  | cons low rest ih =>
    intro z q c
    have hmul : z + 256 ^ (low :: rest).length * q = z + 256 * (256 ^ rest.length * q) := by
      rw [List.length_cons, pow_succ', Int.mul_assoc]
    have hlow : (z + 256 * (256 ^ rest.length * q)) % 256 = z % 256 := Int.add_mul_emod_self_left ..
    have hhigh : (z + 256 * (256 ^ rest.length * q)) / 256 = z / 256 + 256 ^ rest.length * q :=
      Int.add_mul_ediv_left _ _ (by decide)
    rw [hmul, addIvLoop_cons, addIvLoop_cons, ofInt_eq_of_mod hlow, Int.shiftRight_eq_div_pow,
      Int.shiftRight_eq_div_pow]
    exact congrArg _ ((congrArg (addIvLoop rest · _) hhigh).trans (ih (z / 256) q _))

/-- The low byte of the sum. -/
theorem toNat_add_ofInt (low : UInt8) (n : Nat) (c : UInt8) :
    (low + UInt8.ofInt n + c).toNat = (low.toNat + n + c.toNat) % 256 := by
  rw [UInt8.toNat_add, UInt8.toNat_add, toNat_ofInt]
  omega

/-- The sum, byte by byte. -/
theorem ofDigits_addIvLoop_cons (low : UInt8) (rest : List UInt8) (n : Nat) (c : UInt8) :
    Nat.ofDigits 256 ((addIvLoop (low :: rest) n c).map UInt8.toNat) =
      (low.toNat + n + c.toNat) % 256 + 256 * Nat.ofDigits 256 ((addIvLoop rest ↑(n / 256)
        (if low + UInt8.ofInt n + c < low then 1 else 0)).map UInt8.toNat) := by
  have hshift : (n : Int) >>> (8 : Nat) = ((n / 256 : Nat) : Int) := by
    rw [Int.shiftRight_eq_div_pow]
    norm_cast
  rw [addIvLoop_cons, List.map_cons, Nat.ofDigits_cons, toNat_add_ofInt, hshift]

/-- The sum as it should be, byte by byte. -/
theorem add_mod_cons (low V n c w : Nat) :
    (low + 256 * V + n + c) % 256 ^ (w + 1) = (low + n + c) % 256 +
      256 * ((V + n / 256 + (low + n % 256 + c) / 256) % 256 ^ w) := by
  rw [pow_succ', Nat.mod_mul]
  have h1 : (low + 256 * V + n + c) % 256 = (low + n + c) % 256 := by omega
  have h2 : (low + 256 * V + n + c) / 256 = V + n / 256 + (low + n % 256 + c) / 256 := by omega
  rw [h1, h2]

/-! ## When it adds -/

/-- Below the last byte, no byte `0xff` of the addend `n` meets the carry of the bytes below it,
when `n` and `c` are added to `v`. -/
def CarryKept (w v n c : Nat) : Prop :=
  ∀ k, k + 1 < w → digit 256 n k = 255 → v % 256 ^ k + n % 256 ^ k + c < 256 ^ k

instance (w v n c : Nat) : Decidable (CarryKept w v n c) :=
  decidable_of_iff (∀ k, k < w - 1 → digit 256 n k = 255 →
    v % 256 ^ k + n % 256 ^ k + c < 256 ^ k) <|
    forall_congr' fun k => imp_congr_left (by omega)

theorem carryKept_cons {w low V n c : Nat} (hlow : low < 256) (hc : c ≤ 1) :
    CarryKept (w + 1) (low + 256 * V) n c ↔ (0 < w → ¬(n % 256 = 255 ∧ c = 1)) ∧
      CarryKept w V (n / 256) ((low + n % 256 + c) / 256) := by
  have hdigit : ∀ k, digit 256 n (k + 1) = digit 256 (n / 256) k := fun k => by
    rw [digit, digit, pow_succ', Nat.div_div_eq_div_mul]
  have hbyte : ∀ k, (low + 256 * V) % 256 ^ (k + 1) + n % 256 ^ (k + 1) + c < 256 ^ (k + 1) ↔
      V % 256 ^ k + n / 256 % 256 ^ k + (low + n % 256 + c) / 256 < 256 ^ k := fun k => by
    have h1 : (low + 256 * V) % 256 ^ (k + 1) = low + 256 * (V % 256 ^ k) := by
      rw [pow_succ', Nat.mod_mul, Nat.add_mul_mod_self_left, Nat.add_mul_div_left _ _ (by decide),
        Nat.mod_eq_of_lt hlow, Nat.div_eq_of_lt hlow, Nat.zero_add]
    have h2 : n % 256 ^ (k + 1) = n % 256 + 256 * (n / 256 % 256 ^ k) := by
      rw [pow_succ', Nat.mod_mul]
    rw [h1, h2, pow_succ']
    omega
  constructor
  · intro h
    refine ⟨fun hw hbad => ?_, fun k hk hff => (hbyte k).1 (h (k + 1) (by omega) (by rwa [hdigit]))⟩
    have h0 := h 0 (by omega) (by rw [digit, pow_zero, Nat.div_one]; exact hbad.1)
    rw [pow_zero] at h0
    omega
  · rintro ⟨hhere, hrest⟩ (_ | k) hk hff
    · rw [digit, pow_zero, Nat.div_one] at hff
      have := hhere (by omega)
      rw [pow_zero, Nat.mod_one, Nat.mod_one]
      omega
    · exact (hbyte k).2 (hrest k (by omega) (by rwa [← hdigit]))

/-- **The loop of `addIvOpenssl` adds a number that is not negative** if and only if it keeps every
carry: the byte after a carry that is lost comes out one too small. -/
theorem ofDigits_addIvLoop_iff (l : List UInt8) : ∀ {n : Nat} {c : UInt8}, c.toNat ≤ 1 →
    (Nat.ofDigits 256 ((addIvLoop l n c).map UInt8.toNat) =
        (Nat.ofDigits 256 (l.map UInt8.toNat) + n + c.toNat) % 256 ^ l.length ↔
      CarryKept l.length (Nat.ofDigits 256 (l.map UInt8.toNat)) n c.toNat) := by
  induction l with
  | nil =>
    intro n c _
    refine iff_of_true ?_ fun k hk => ?_
    · rw [List.length_nil, pow_zero, Nat.mod_one]
      rfl
    · simp at hk
  | cons low rest ih =>
    intro n c hc
    rw [ofDigits_addIvLoop_cons, List.map_cons, Nat.ofDigits_cons, List.length_cons, add_mod_cons,
      carryKept_cons low.toNat_lt hc]
    set c' : UInt8 := if low + UInt8.ofInt n + c < low then 1 else 0 with hc'
    have hc1 : c'.toNat ≤ 1 := by
      rw [hc']
      split <;> decide
    have hlow := low.toNat_lt
    by_cases hbad : n % 256 = 255 ∧ c.toNat = 1
    · -- the sum is the byte itself, and no carry is seen
      cases rest with
      | nil =>
        refine iff_of_true ?_ ⟨fun h => ?_, fun k hk => ?_⟩
        · rw [List.length_nil, pow_zero, Nat.mod_one]
          rfl
        · simp at h
        · simp at hk
      | cons next rest =>
        have hlost : c'.toNat = 0 := by
          have hsum : ¬low + UInt8.ofInt n + c < low := by
            rw [UInt8.lt_iff_toNat_lt, toNat_add_ofInt]
            omega
          rw [hc', if_neg hsum]
          rfl
        refine iff_of_false (fun h => ?_) fun h => h.1 (Nat.succ_pos _) hbad
        rw [ofDigits_addIvLoop_cons, List.map_cons, Nat.ofDigits_cons, List.length_cons,
          add_mod_cons, hlost] at h
        omega
    · have hcarry : c'.toNat = (low.toNat + n % 256 + c.toNat) / 256 := carry_eq low n hc hbad
      rw [← hcarry, ← ih hc1]
      constructor
      · intro h
        exact ⟨fun _ => hbad, by omega⟩
      · rintro ⟨-, h⟩
        rw [h]

/-- A negative addend, with `m` bytes of a number and `0xff` above them, is never added as that
number: the byte above them comes out wrong. -/
theorem ofDigits_addIvLoop_neg (m : Nat) : ∀ (l : List UInt8) {n k : Nat} {c : UInt8},
    m < l.length → n < 256 ^ m → c.toNat ≤ k → k ≤ 1 →
    Nat.ofDigits 256 ((addIvLoop l ((n : Int) - 256 ^ m) c).map UInt8.toNat) ≠
      (Nat.ofDigits 256 (l.map UInt8.toNat) + n + k) % 256 ^ l.length := by
  induction m with
  | zero =>
    rintro (_ | ⟨low, rest⟩) n k c hm hn hck hk h
    · simp at hm
    have hzero : n = 0 := by simpa using hn
    have hlow := low.toNat_lt
    have hff : (UInt8.ofInt ((0 : Nat) - 256 ^ 0 : Int)).toNat = 255 := rfl
    rw [hzero, addIvLoop_cons, List.map_cons, List.map_cons, Nat.ofDigits_cons, Nat.ofDigits_cons,
      List.length_cons, add_mod_cons, UInt8.toNat_add, UInt8.toNat_add, hff] at h
    omega
  | succ m ih =>
    rintro (_ | ⟨low, rest⟩) n k c hm hn hck hk h
    · simp at hm
    have hlow := low.toNat_lt
    have hbyte : UInt8.ofInt ((n : Int) - 256 ^ (m + 1)) = UInt8.ofInt n := by
      refine ofInt_eq_of_mod ?_
      rw [pow_succ', Int.sub_mul_emod_self_left]
    have hshift : ((n : Int) - 256 ^ (m + 1)) >>> (8 : Nat) =
        ((n / 256 : Nat) : Int) - 256 ^ m := by
      rw [Int.shiftRight_eq_div_pow, pow_succ']
      have : ((n : Int) - 256 * 256 ^ m) / 256 = (n : Int) / 256 - 256 ^ m :=
        Int.sub_mul_ediv_left _ _ (by decide)
      exact_mod_cast this
    rw [addIvLoop_cons, List.map_cons, List.map_cons, Nat.ofDigits_cons, Nat.ofDigits_cons,
      List.length_cons, add_mod_cons, hbyte, hshift, toNat_add_ofInt] at h
    set c' : UInt8 := if low + UInt8.ofInt n + c < low then 1 else 0 with hc'
    -- the low bytes are equal only when the carries are
    have hkc : k = c.toNat := by omega
    have hle : c'.toNat ≤ (low.toNat + n % 256 + k) / 256 := by
      by_cases hbad : n % 256 = 255 ∧ c.toNat = 1
      · have hsum : ¬low + UInt8.ofInt n + c < low := by
          rw [UInt8.lt_iff_toNat_lt, toNat_add_ofInt]
          omega
        rw [hc', if_neg hsum]
        exact Nat.zero_le _
      · rw [hc', carry_eq low n (by omega) hbad, hkc]
    refine ih rest (n := n / 256) (c := c') (k := (low.toNat + n % 256 + k) / 256)
      (Nat.lt_of_succ_lt_succ hm) ?_ hle (by omega) (by omega)
    rw [pow_succ] at hn
    exact Nat.div_lt_of_lt_mul (by rwa [Nat.mul_comm])

/-- **Exactly when `addIvOpenssl` adds**, for a counter with at least the four bytes of the addend:
the addend is not negative as an `int`, or there is no fifth byte to see it; and no carry meets a
byte `0xff` of the addend, except in the last byte. -/
theorem counter_addIvOpenssl_iff (iv : List UInt8) (num : UInt32) (hlen : 4 ≤ iv.length) :
    (addIvOpenssl iv num).length = iv.length ∧
      (counter (addIvOpenssl iv num) = (counter iv + num.toNat) % 256 ^ iv.length ↔
        (num.toNat < 2 ^ 31 ∨ iv.length = 4) ∧
          CarryKept iv.length (counter iv) num.toNat 0) := by
  refine ⟨length_addIvOpenssl iv num, ?_⟩
  have hnum := num.toNat_lt
  have hint : num.toBitVec.toInt = if num.toNat < 2 ^ 31 then (num.toNat : Int)
      else (num.toNat : Int) - 256 ^ 4 := by
    rw [BitVec.toInt_eq_toNat_cond]
    change (if 2 * num.toNat < 2 ^ 32 then (num.toNat : Int)
      else (num.toNat : Int) - (2 ^ 32 : Nat)) = _
    split <;> split <;> omega
  have hadds := ofDigits_addIvLoop_iff iv.reverse (n := num.toNat) (c := 0) (by decide)
  rw [List.length_reverse, UInt8.toNat_zero, Nat.add_zero] at hadds
  rw [counter, addIvOpenssl, List.reverse_reverse, hint]
  by_cases hsmall : num.toNat < 2 ^ 31
  · rw [if_pos hsmall]
    exact hadds.trans ⟨fun h => ⟨Or.inl hsmall, h⟩, And.right⟩
  rw [if_neg hsmall]
  by_cases hfour : iv.length = 4
  · have hsame := addIvLoop_add_mul iv.reverse num.toNat (-1) 0
    rw [List.length_reverse, hfour, Int.mul_neg, Int.mul_one, ← Int.sub_eq_add_neg] at hsame
    rw [hsame]
    exact hadds.trans ⟨fun h => ⟨Or.inr hfour, h⟩, And.right⟩
  · refine iff_of_false ?_ fun h => h.1.elim hsmall hfour
    have h := ofDigits_addIvLoop_neg 4 iv.reverse (n := num.toNat) (c := 0) (k := 0)
      (by rw [List.length_reverse]; omega) (by omega) (by decide) (by decide)
    rwa [List.length_reverse, Nat.add_zero] at h

/-- An addend with a byte `0xff` that no carry meets. -/
theorem counter_addIvOpenssl_iff_kept :
    4 ≤ (List.replicate 16 (4 : UInt8)).length ∧
      counter (addIvOpenssl (List.replicate 16 4) 0xff00) =
        (counter (List.replicate 16 4) + 0xff00) % 256 ^ 16 := by
  have hlen : 4 ≤ (List.replicate 16 (4 : UInt8)).length := by decide
  exact ⟨hlen, (counter_addIvOpenssl_iff (List.replicate 16 4) 0xff00 hlen).2.2
    ⟨Or.inl (by decide), by decide⟩⟩

/-- **`addIvOpenssl` loses a carry**: `0xff` and `0xff01` give `0` instead of `0x10000`. -/
theorem addIvOpenssl_loses : ¬∀ (iv : List UInt8) (num : UInt32), 4 ≤ iv.length →
    counter (addIvOpenssl iv num) = (counter iv + num.toNat) % 256 ^ iv.length := by
  intro h
  have hbad := h (List.replicate 15 0 ++ [0xff]) 0xff01 (by decide)
  exact absurd hbad (by decide)

/-! ## The counters that `incrementIv` goes through -/

/-- How many of the numbers below `x` have a low byte of `0xfe` or `0xff`. -/
def carries (x : Nat) : Nat := 2 * (x / 256) + (x % 256 - 254)

theorem carries_succ (x : Nat) :
    carries (x + 1) = carries x + if x % 2 ^ 8 < 254 then 0 else 1 := by
  unfold carries
  split <;> omega

theorem carries_mono {x y : Nat} (h : x ≤ y) : carries x ≤ carries y := by
  unfold carries
  omega

/-- The low byte counts, and the others make a step at each of its carries. -/
theorem iterate_incrementLoop_cons (b : UInt8) (rest : List UInt8) (j : Nat) :
    incrementLoop^[j] (b :: rest) = UInt8.ofNat (b.toNat + j) ::
      incrementLoop^[carries (b.toNat + j) - carries b.toNat] rest := by
  induction j with
  | zero => simp
  | succ j ih =>
    have hle := carries_mono (Nat.le_add_right b.toNat j)
    rw [Function.iterate_succ_apply', ih, incrementLoop_cons, UInt8.toNat_ofNat', ← Nat.add_assoc]
    have hbyte : UInt8.ofNat ((b.toNat + j) % 2 ^ 8 + 1) = UInt8.ofNat (b.toNat + j + 1) := by
      refine UInt8.toNat_inj.1 ?_
      rw [UInt8.toNat_ofNat', UInt8.toNat_ofNat']
      omega
    rw [hbyte]
    by_cases h : (b.toNat + j) % 2 ^ 8 < 254
    · have hsame : carries (b.toNat + j + 1) = carries (b.toNat + j) := by
        rw [carries_succ, if_pos h, Nat.add_zero]
      rw [if_pos h, hsame]
    · have hnext : carries (b.toNat + j + 1) - carries b.toNat =
          carries (b.toNat + j) - carries b.toNat + 1 := by
        rw [carries_succ, if_neg h]
        omega
      rw [if_neg h, hnext, Function.iterate_succ_apply']

/-- While the low byte goes round once, the others make two steps. -/
theorem iterate_incrementLoop_round (b : UInt8) (rest : List UInt8) (k : Nat) :
    incrementLoop^[256 * k] (b :: rest) = b :: incrementLoop^[2 * k] rest := by
  have hbyte : UInt8.ofNat (b.toNat + 256 * k) = b := by
    have hb := b.toNat_lt
    refine UInt8.toNat_inj.1 ?_
    rw [UInt8.toNat_ofNat']
    omega
  have hcarries : carries (b.toNat + 256 * k) - carries b.toNat = 2 * k := by
    unfold carries
    omega
  rw [iterate_incrementLoop_cons, hbyte, hcarries]

theorem iterate_incrementLoop_period (l : List UInt8) :
    incrementLoop^[2 ^ (7 * l.length + 1)] l = l := by
  induction l with
  | nil => exact Function.iterate_fixed rfl _
  | cons b rest ih =>
    have hsteps : 2 ^ (7 * (b :: rest).length + 1) = 256 * 2 ^ (7 * rest.length) := by
      have hexp : 7 * (rest.length + 1) + 1 = 8 + 7 * rest.length := by omega
      rw [List.length_cons, hexp, Nat.pow_add]
    rw [hsteps, iterate_incrementLoop_round, ← Nat.pow_succ', ih]

theorem iterate_incrementIv (iv : List UInt8) (j : Nat) :
    incrementIv^[j] iv = (incrementLoop^[j] iv.reverse).reverse := by
  have h : Function.Semiconj List.reverse incrementLoop incrementIv := fun l => by
    rw [incrementIv, List.reverse_reverse]
  rw [(h.iterate_right j).eq, List.reverse_reverse]

@[simp] theorem length_iterate_incrementIv (iv : List UInt8) (j : Nat) :
    (incrementIv^[j] iv).length = iv.length := by
  induction j with
  | zero => rfl
  | succ j ih => rw [Function.iterate_succ_apply', length_incrementIv, ih]

/-- **A counter of `n` bytes is back after `2 ^ (7 * n + 1)` increments.** -/
theorem iterate_incrementIv_period (iv : List UInt8) :
    incrementIv^[2 ^ (7 * iv.length + 1)] iv = iv := by
  have h := iterate_incrementLoop_period iv.reverse
  rw [List.length_reverse] at h
  rw [iterate_incrementIv, h, List.reverse_reverse]

/-- `256 ^ n` increments of the `n` bytes visit every value once before the first one comes back. -/
def VisitsAll (iv : List UInt8) : Prop :=
  Set.BijOn (fun j => incrementIv^[j] iv) (Set.Iio (256 ^ iv.length)) {l | l.length = iv.length}

/-- The first `256 ^ n` counter blocks are all different. -/
def NeverReuses (iv : List UInt8) : Prop :=
  Set.InjOn (fun j => incrementIv^[j] iv) (Set.Iio (256 ^ iv.length))

/-- Two bytes or more are back too early. -/
theorem not_neverReuses {iv : List UInt8} (hlen : 1 < iv.length) : ¬NeverReuses iv := by
  intro h
  have hpow : 256 ^ iv.length = 2 ^ (8 * iv.length) := by rw [Nat.pow_mul]
  have hearly : 2 ^ (7 * iv.length + 1) < 256 ^ iv.length := by
    rw [hpow]
    exact Nat.pow_lt_pow_right (by decide) (by omega)
  have hstart : 0 ∈ Set.Iio (256 ^ iv.length) := Nat.pow_pos (by decide)
  exact absurd (h hearly hstart (iterate_incrementIv_period iv)) (Nat.ne_of_gt (Nat.two_pow_pos _))

/-- One byte has nothing to carry into. -/
theorem visitsAll_one {iv : List UInt8} (hlen : iv.length = 1) : VisitsAll iv := by
  obtain ⟨b, rfl⟩ := List.length_eq_one_iff.1 hlen
  have hvalue : ∀ j, incrementIv^[j] [b] = [UInt8.ofNat (b.toNat + j)] := fun j => by
    rw [iterate_incrementIv, List.reverse_singleton, iterate_incrementLoop_cons,
      Function.iterate_fixed (f := incrementLoop) (x := []) rfl]
    rfl
  have hb := b.toNat_lt
  refine ⟨fun j _ => length_iterate_incrementIv _ j, fun i hi j hj h => ?_, fun l hl => ?_⟩
  · simp only [hvalue, List.cons.injEq, and_true] at h
    have hmod := congrArg UInt8.toNat h
    rw [UInt8.toNat_ofNat', UInt8.toNat_ofNat'] at hmod
    simp only [List.length_singleton, pow_one, Set.mem_Iio] at hi hj
    omega
  · obtain ⟨a, rfl⟩ := List.length_eq_one_iff.1 (hl.trans hlen)
    have ha := a.toNat_lt
    refine ⟨(a.toNat + 256 - b.toNat) % 256, ?_, ?_⟩
    · simp only [List.length_singleton, pow_one, Set.mem_Iio]
      omega
    · simp only [hvalue, List.cons.injEq, and_true]
      refine UInt8.toNat_inj.1 ?_
      rw [UInt8.toNat_ofNat']
      omega

/-- **Exactly when `incrementIv` counts.**  A single call adds one unless the lowest byte of the sum
that is not zero is `0xff`, and not the first byte; and the calls go through all the values, with
none too early, for a single byte only. -/
theorem incrementIv_iff (iv : List UInt8) (hne : iv ≠ []) :
    (incrementIv iv).length = iv.length ∧
      (counter (incrementIv iv) = (counter iv + 1) % 256 ^ iv.length ↔
        ¬∃ k, k + 1 < iv.length ∧ (counter iv + 1) % 256 ^ (k + 1) = 255 * 256 ^ k) ∧
      (VisitsAll iv ↔ iv.length = 1) ∧ (NeverReuses iv ↔ iv.length = 1) := by
  have hpos := List.length_pos_of_ne_nil hne
  refine ⟨length_incrementIv iv, ?_, ⟨fun h => ?_, visitsAll_one⟩, ⟨fun h => ?_, fun h => ?_⟩⟩
  · have h := ofDigits_incrementLoop_iff iv.reverse
    rw [List.length_reverse] at h
    rw [counter, incrementIv, List.reverse_reverse]
    refine h.trans ⟨fun hall => ?_, fun hno k hk hbad => hno ⟨k, hk, hbad⟩⟩
    rintro ⟨k, hk, hbad⟩
    exact hall k hk hbad
  · by_contra hone
    exact not_neverReuses (by omega) h.injOn
  · by_contra hone
    exact not_neverReuses (by omega) h
  · exact (visitsAll_one h).injOn

/-- A counter of sixteen bytes, of which two roll over. -/
def rollingIv : List UInt8 := [1, 2, 3, 4, 5, 6, 7, 8, 9, 10, 11, 12, 13, 14, 0xff, 0xff]

theorem incrementIv_iff_rolling : counter (incrementIv rollingIv) = counter rollingIv + 1 ∧
    ¬VisitsAll rollingIv ∧ ¬NeverReuses rollingIv := by
  obtain ⟨-, hadds, hvisits, hreuses⟩ := incrementIv_iff rollingIv (by decide)
  refine ⟨hadds.2 ?_, fun h => absurd (hvisits.1 h) (by decide),
    fun h => absurd (hreuses.1 h) (by decide)⟩
  rintro ⟨k, hk, hbad⟩
  have hk' : k < 15 := Nat.lt_of_succ_lt_succ hk
  have hnone : ∀ k < 15, (counter rollingIv + 1) % 256 ^ (k + 1) ≠ 255 * 256 ^ k := by decide
  exact hnone k hk' hbad

/-- **`incrementIv` skips**: the counter after `0x00fe` is `0x01ff`, and two bytes are back after
half of their values. -/
theorem incrementIv_skips : ¬∀ iv : List UInt8, iv ≠ [] →
    counter (incrementIv iv) = (counter iv + 1) % 256 ^ iv.length ∧ VisitsAll iv := by
  intro h
  have hbad := (h [0, 0xfe] (by decide)).1
  exact absurd hbad (by decide)

end Zedboard
