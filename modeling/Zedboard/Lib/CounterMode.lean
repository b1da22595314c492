import Mathlib.Data.List.Basic
import Zedboard.Lib.Radix

/-!
# Counter mode

The abstract view of counter mode: a block function applied to consecutive counters gives a stream
of bytes, and a message is combined with it byte by byte.  Nothing depends on how a message is cut
(`xorFrom_append`), and doing it twice gives the message back (`xorFrom_xorFrom`).

Counters are numbers, written into a block with the most significant byte first; only their value
modulo `256 ^ 16` matters.
-/

set_option autoImplicit false

namespace Zedboard

/-- Sixteen bytes. -/
abbrev Block := Fin 16 → UInt8

/-- The number `v` as a block, most significant byte first. -/
def counterBlock (v : Nat) : Block := fun i => UInt8.ofNat (digit 256 v (15 - i))

theorem counterBlock_mod (v : Nat) : counterBlock (v % 256 ^ 16) = counterBlock v := by
  funext i
  rw [counterBlock, digit_mod (by omega)]
  rfl

/-- Different counters have different blocks. -/
theorem counterBlock_inj {v w : Nat} (hv : v < 256 ^ 16) (hw : w < 256 ^ 16)
    (h : counterBlock v = counterBlock w) : v = w := by
  have hdigit : ∀ k, k < 16 → digit 256 v k = digit 256 w k := by
    intro k hk
    have h1 := congrArg UInt8.toNat (congrFun h ⟨15 - k, by omega⟩)
    have hk' : 15 - (15 - k) = k := by omega
    simp only [counterBlock, UInt8.toNat_ofNat', hk'] at h1
    rwa [Nat.mod_eq_of_lt (digit_lt (by decide) v k), Nat.mod_eq_of_lt (digit_lt (by decide) w k)]
      at h1
  have hval : ∀ j, j ≤ 16 → v % 256 ^ j = w % 256 ^ j := by
    intro j
    induction j with
    | zero => intro _; rw [pow_zero, Nat.mod_one, Nat.mod_one]
    | succ j ih =>
      intro hj
      have h1 := hdigit j (by omega)
      rw [digit, digit] at h1
      rw [pow_succ, Nat.mod_mul, Nat.mod_mul, ih (by omega), h1]
  have h1 := hval 16 le_rfl
  rwa [Nat.mod_eq_of_lt hv, Nat.mod_eq_of_lt hw] at h1

/-! ## The stream -/

/-- The byte of a block at a position of the stream. -/
def Block.at (b : Block) (p : Nat) : UInt8 := b ⟨p % 16, Nat.mod_lt _ (by decide)⟩

theorem Block.at_eq {b : Block} {p : Nat} {j : Fin 16} (h : p % 16 = j) : b.at p = b j := by
  rw [Block.at]
  congr 1
  exact Fin.ext h

/-- Two blocks are equal when all their halves are. -/
theorem Block.eq_of_halves {b b' : Block} (h₁ : ∀ t, t < 8 → b.at t = b.at (8 + t))
    (h₂ : ∀ t, t < 8 → b.at (8 + t) = b'.at t) (h₃ : ∀ t, t < 8 → b'.at t = b'.at (8 + t)) :
    b = b' := by
  funext j
  have hself : ∀ x : Block, x.at j = x j := fun x => Block.at_eq (Nat.mod_eq_of_lt j.isLt)
  rw [← hself b, ← hself b']
  by_cases hj : j.val < 8
  · rw [h₁ _ hj, h₂ _ hj]
  · have hj' : 8 + (j.val - 8) = j := by omega
    rw [← hj', h₂ _ (by omega), h₃ _ (by omega)]

theorem Block.at_add (b : Block) (p : Nat) : b.at (16 + p) = b.at p := by
  simp only [Block.at, Nat.add_mod_left]

/-- The byte at the position `p` of the stream that starts with the counter `v`. -/
def keystream (E : Block → Block) (v p : Nat) : UInt8 :=
  (E (counterBlock (v + p / 16))).at p

variable {E : Block → Block}

/-- The stream from a later counter is the stream from a later position. -/
theorem keystream_add (v q r : Nat) :
    keystream E (v + q) r = keystream E v (16 * q + r) := by
  have hdiv : (16 * q + r) / 16 = q + r / 16 := by omega
  have hmod : (16 * q + r) % 16 = r % 16 := by omega
  simp only [keystream, Block.at, hdiv, hmod, Nat.add_assoc]

theorem keystream_mod (v p : Nat) : keystream E (v % 256 ^ 16) p = keystream E v p := by
  rw [keystream, keystream, ← counterBlock_mod, Nat.mod_add_mod, counterBlock_mod]

/-! ## Messages -/

/-- The bytes `d` combined with the stream `ks` from the position `p` on. -/
def xorFrom (ks : Nat → UInt8) (p : Nat) (d : List UInt8) : List UInt8 :=
  d.mapIdx fun i b => b ^^^ ks (p + i)

@[simp] theorem length_xorFrom (ks : Nat → UInt8) (p : Nat) (d : List UInt8) :
    (xorFrom ks p d).length = d.length := List.length_mapIdx

/-- **It does not matter how the message is cut.** -/
theorem xorFrom_append (ks : Nat → UInt8) (p : Nat) (d d' : List UInt8) :
    xorFrom ks p (d ++ d') = xorFrom ks p d ++ xorFrom ks (p + d.length) d' := by
  rw [xorFrom, List.mapIdx_append]
  simp only [xorFrom, Nat.add_assoc, Nat.add_comm d.length]

/-- **Deciphering is enciphering.** -/
theorem xorFrom_xorFrom (ks : Nat → UInt8) (p : Nat) (d : List UInt8) :
    xorFrom ks p (xorFrom ks p d) = d := by
  refine List.ext_getElem (by simp) fun k h1 h2 => ?_
  simp only [xorFrom, List.getElem_mapIdx]
  rw [UInt8.xor_assoc, UInt8.xor_self, UInt8.xor_zero]

theorem xorFrom_congr {ks ks' : Nat → UInt8} {p p' : Nat} {d : List UInt8}
    (h : ∀ i, i < d.length → ks (p + i) = ks' (p' + i)) : xorFrom ks p d = xorFrom ks' p' d := by
  refine List.ext_getElem (by simp) fun k h1 h2 => ?_
  rw [length_xorFrom] at h1
  simp only [xorFrom, List.getElem_mapIdx, h k h1]

end Zedboard
