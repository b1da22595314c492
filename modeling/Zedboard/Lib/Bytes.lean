import Mathlib.Data.List.Basic
import Mathlib.Tactic.Ring

/-!
# Byte-addressed memory

A memory is a total map from addresses to bytes.  This file has the two accesses everything else
is made of, a `k`-byte little-endian read and write, and the block copy, together with the facts
that make them usable without ever looking at a byte again:

* `readLE_writeLE` reads back what was written, truncated to the width of the access;
* `readLE_writeLE_of_apart` and `writeLE_of_outside` say that nothing else has changed;
* `readLE_congr` says that a read sees only the bytes it covers.
-/

set_option autoImplicit false

namespace Zedboard

/-- A memory: the byte at every address. -/
abbrev Mem := Nat → UInt8

namespace Mem

/-! ## Little-endian words -/

/-- The number in the `k` bytes from `a` on, least significant byte first. -/
def readLE (m : Mem) : Nat → Nat → Nat
  | 0, _ => 0
  | k + 1, a => (m a).toNat + 256 * readLE m k (a + 1)

/-- Store the low `k` bytes of `v` from `a` on, least significant byte first. -/
def writeLE (m : Mem) (k a v : Nat) : Mem := fun x =>
  if a ≤ x ∧ x < a + k then UInt8.ofNat (v / 256 ^ (x - a)) else m x

/-- The `k` bytes from `a` and the `j` bytes from `b` do not overlap. -/
def Apart (a k b j : Nat) : Prop := a + k ≤ b ∨ b + j ≤ a

theorem readLE_congr {m m' : Mem} : ∀ {k a : Nat},
    (∀ x, a ≤ x → x < a + k → m x = m' x) → readLE m k a = readLE m' k a
  | 0, _, _ => rfl
  | k + 1, a, h => by
    rw [readLE, readLE, h a (Nat.le_refl a) (by omega),
      readLE_congr fun x h1 h2 => h x (by omega) (by omega)]

theorem readLE_lt (m : Mem) : ∀ k a : Nat, readLE m k a < 256 ^ k
  | 0, _ => by simp [readLE]
  | k + 1, a => by
    have h1 : (m a).toNat < 256 := (m a).toNat_lt
    have h2 := readLE_lt m k (a + 1)
    rw [readLE, pow_succ]
    omega

theorem writeLE_of_outside (m : Mem) {k a v x : Nat} (h : x < a ∨ a + k ≤ x) :
    m.writeLE k a v x = m x := by
  rw [writeLE, if_neg (by omega)]

theorem writeLE_of_inside (m : Mem) {k a v x : Nat} (h1 : a ≤ x) (h2 : x < a + k) :
    m.writeLE k a v x = UInt8.ofNat (v / 256 ^ (x - a)) := by
  rw [writeLE, if_pos ⟨h1, h2⟩]

/-- Reading a word that the write does not touch. -/
theorem readLE_writeLE_of_apart (m : Mem) {k a v j b : Nat} (h : Apart a k b j) :
    readLE (m.writeLE k a v) j b = readLE m j b :=
  readLE_congr fun _ h1 h2 => m.writeLE_of_outside (by unfold Apart at h; omega)

/-- A read sees the low bytes of the last number written over all it covers. -/
theorem readLE_of_bytes {m : Mem} : ∀ {k a v : Nat},
    (∀ i, i < k → m (a + i) = UInt8.ofNat (v / 256 ^ i)) → readLE m k a = v % 256 ^ k
  | 0, _, _, _ => by simp [readLE, Nat.mod_one]
  | k + 1, a, v, h => by
    have h0 : (m a).toNat = v % 256 := by
      have h0 := h 0 (by omega)
      rw [Nat.add_zero, pow_zero, Nat.div_one] at h0
      rw [h0]
      simp
    have hrest : readLE m k (a + 1) = v / 256 % 256 ^ k := by
      refine readLE_of_bytes fun i hi => ?_
      rw [Nat.div_div_eq_div_mul, ← pow_succ', ← h (i + 1) (by omega)]
      congr 1
      omega
    rw [readLE, h0, hrest, pow_succ', Nat.mod_mul]

/-- Reading back the word just written. -/
theorem readLE_writeLE (m : Mem) (k a v : Nat) :
    readLE (m.writeLE k a v) k a = v % 256 ^ k := by
  refine readLE_of_bytes fun i hi => ?_
  rw [writeLE_of_inside m (by omega) (by omega), Nat.add_sub_cancel_left]

theorem readLE_writeLE_of_lt (m : Mem) {k a v : Nat} (h : v < 256 ^ k) :
    readLE (m.writeLE k a v) k a = v := by
  rw [readLE_writeLE, Nat.mod_eq_of_lt h]

/-! ## Runs of bytes -/

/-- The `n` bytes from `a` on. -/
def bytes (m : Mem) (a n : Nat) : List UInt8 := (List.range n).map fun i => m (a + i)

@[simp] theorem length_bytes (m : Mem) (a n : Nat) : (m.bytes a n).length = n := by
  simp [bytes]

@[simp] theorem getElem_bytes (m : Mem) (a n i : Nat) (h : i < (m.bytes a n).length) :
    (m.bytes a n)[i] = m (a + i) := by
  simp [bytes]

theorem bytes_congr {m m' : Mem} {a n : Nat} (h : ∀ x, a ≤ x → x < a + n → m x = m' x) :
    m.bytes a n = m'.bytes a n :=
  List.map_congr_left fun i hi => h _ (by omega) (by have := List.mem_range.1 hi; omega)

theorem eq_of_bytes_eq {m m' : Mem} {a b n : Nat} (h : m.bytes a n = m'.bytes b n) {k : Nat}
    (hk : k < n) : m (a + k) = m' (b + k) := by
  rw [← getElem_bytes m a n k (by simpa), ← getElem_bytes m' b n k (by simpa)]
  exact List.getElem_of_eq h _

/-- `m` with the `n` bytes from `a` on taken from `f`. -/
def fill (m : Mem) (a n : Nat) (f : Nat → UInt8) : Mem := fun x =>
  if a ≤ x ∧ x < a + n then f (x - a) else m x

theorem fill_of_outside (m : Mem) {a n x : Nat} (f : Nat → UInt8) (h : x < a ∨ a + n ≤ x) :
    m.fill a n f x = m x := by
  rw [fill, if_neg (by omega)]

theorem fill_of_inside (m : Mem) {a n i : Nat} (f : Nat → UInt8) (h : i < n) :
    m.fill a n f (a + i) = f i := by
  rw [fill, if_pos (by omega), Nat.add_sub_cancel_left]

@[simp] theorem fill_zero (m : Mem) (a : Nat) (f : Nat → UInt8) : m.fill a 0 f = m :=
  funext fun x => m.fill_of_outside f (by omega)

/-- Filling one byte more is filling, then storing that byte. -/
theorem fill_succ (m : Mem) (a n : Nat) (f : Nat → UInt8) :
    m.fill a (n + 1) f = Function.update (m.fill a n f) (a + n) (f n) := by
  funext x
  by_cases hx : x = a + n
  · subst hx
    rw [Function.update_self, fill_of_inside m f (Nat.lt_succ_self n)]
  · rw [Function.update_of_ne hx]
    unfold fill
    by_cases h : a ≤ x ∧ x < a + n
    · rw [if_pos h, if_pos (by omega)]
    · rw [if_neg h, if_neg (by omega)]

/-- Two runs of bytes, one behind the other. -/
theorem fill_append (m : Mem) (a n k : Nat) (f g : Nat → UInt8) :
    (m.fill a n f).fill (a + n) k g = m.fill a (n + k) fun i =>
      if i < n then f i else g (i - n) := by
  funext x
  by_cases h : a + n ≤ x ∧ x < a + n + k
  · have h1 : ¬x - a < n := by omega
    have h2 : x - (a + n) = x - a - n := by omega
    rw [fill, if_pos h, fill, if_pos (by omega), if_neg h1, h2]
  · rw [fill_of_outside _ _ (by omega)]
    by_cases h' : a ≤ x ∧ x < a + n
    · rw [fill, if_pos h', fill, if_pos (by omega), if_pos (by omega)]
    · rw [fill_of_outside _ _ (by omega), fill_of_outside _ _ (by omega)]

theorem fill_congr (m : Mem) {a n : Nat} {f g : Nat → UInt8} (h : ∀ i, i < n → f i = g i) :
    m.fill a n f = m.fill a n g := by
  funext x
  unfold fill
  by_cases hx : a ≤ x ∧ x < a + n
  · rw [if_pos hx, if_pos hx, h _ (by omega)]
  · rw [if_neg hx, if_neg hx]

end Mem
end Zedboard
