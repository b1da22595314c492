import Zedboard.Aes.Fpga

/-!
# What a cipher carries from call to call

`Core` is the part of a cipher on which the bytes that `Aes_encrypt_ctr_hw` emits depend, and
`Core.emit` and `Core.advance` are what one call does with it: the stream it combines the message
with, and the core it leaves.  Neither depends on the buffers.

`At v N c` says that the cipher is where counter mode should be after `N` bytes from the counter
`v`.  A call whose counter addition misses no carry (`CallSafe`) emits the right stream
(`At.emit_eq`) and leaves the cipher where it should be (`At.advance`).
-/

set_option autoImplicit false

namespace Zedboard

/-- The state of a cipher between two calls. -/
structure Core where
  key : Words
  iv : List UInt8
  ivIn : Words
  lastLocation : Nat
  previousStorage : Block

/-- The core of a cipher. -/
def FpgaAes.core (c : FpgaAes) : Core := ⟨c.keyIn, c.iv, c.ivIn, c.lastLocation, c.previousStorage⟩

namespace Core

variable (aes : Block → Block → Block) (c : Core) (len : Nat)

/-- The block function of the cipher. -/
def encipher : Block → Block := aes (blockOf c.key.toBytes)

/-- How many bytes of the last keystream block a call uses. -/
def leftover : Nat := if 0 < c.lastLocation then min (16 - c.lastLocation) len else 0

/-- How many whole blocks a call hands to the core. -/
def fullBlocks : Nat := (len - c.leftover len) / 16

/-- How many bytes are left after them. -/
def extraBytes : Nat := (len - c.leftover len) % 16

/-- The counter bytes once the whole blocks have been counted. -/
def tailIv : List UInt8 := addIvOpenssl c.iv (UInt32.ofNat (c.fullBlocks len))

/-- The counter words once the whole blocks have been counted. -/
def tailWords : Words := addWords c.ivIn (UInt32.ofNat (c.fullBlocks len))

/-- The stream that a call for `len` bytes combines the message with. -/
def emit (i : Nat) : UInt8 :=
  if i < c.leftover len then c.previousStorage.at (c.lastLocation + i)
  else if i - c.leftover len < 16 * c.fullBlocks len then
    keystream (c.encipher aes) (counter c.ivIn.toBytes) (i - c.leftover len)
  else (c.encipher aes (blockOf (c.tailIv len))).at (i - c.leftover len)

/-- The core after a call for `len` bytes. -/
def advance : Core :=
  if c.extraBytes len = 0 then
    { c with
      iv := c.tailIv len
      ivIn := c.tailWords len
      lastLocation := (c.lastLocation + c.leftover len) % 16 }
  else
    { c with
      iv := addIvOpenssl (c.tailIv len) 1
      ivIn := addWords (c.tailWords len) 1
      lastLocation := c.extraBytes len
      previousStorage := c.encipher aes (blockOf (c.tailIv len)) }

/-- The counter addition of the call misses no carry. -/
def CallSafe : Prop := CarrySafe c.iv.reverse (c.fullBlocks len) 0

instance : Decidable (c.CallSafe len) := decidableCarrySafe _ _ _

variable {aes c len}

/-- Calls of less than 65280 blocks are safe. -/
theorem callSafe_of_lt (h : len < 16 * 65280) : c.CallSafe len := by
  rw [CallSafe]
  have hfull : c.fullBlocks len < 65280 := by
    rw [fullBlocks]
    omega
  cases c.iv.reverse with
  | nil => trivial
  | cons b l => exact ⟨by omega, carrySafe_of_lt _ (by omega)⟩

@[simp] theorem advance_key : (c.advance aes len).key = c.key := by
  rw [advance]
  split <;> rfl

theorem advance_encipher : (c.advance aes len).encipher aes = c.encipher aes := by
  rw [encipher, advance_key]
  rfl

theorem advance_lastLocation_lt : (c.advance aes len).lastLocation < 16 := by
  rw [advance]
  split
  · exact Nat.mod_lt _ (by decide)
  · exact Nat.mod_lt _ (by decide)

/-! ## A call in two parts -/

/-- What the leftover of the last block does to the cipher. -/
def used (c : Core) (n : Nat) : Core :=
  { c with lastLocation := if 16 ≤ c.lastLocation + n then 0 else c.lastLocation + n }

/-- A call that goes on after the leftover has used it up. -/
theorem used_leftover (h : c.lastLocation < 16) (hlen : c.leftover len < len ∨ c.lastLocation = 0) :
    (c.used (c.leftover len)).lastLocation = 0 ∧
      (c.lastLocation + c.leftover len) % 16 = 0 := by
  rw [used, leftover] at *
  split_ifs at * with h1 h2 h3
  · exact ⟨rfl, by omega⟩
  · omega
  · omega
  · exact ⟨by dsimp only; omega, by omega⟩

theorem leftover_of_zero (h : c.lastLocation = 0) : c.leftover len = 0 := by
  rw [leftover, if_neg (by omega)]

/-- What the call emits after the leftover. -/
theorem emit_used (h : c.lastLocation < 16) (hlen : c.leftover len < len ∨ c.lastLocation = 0)
    (i : Nat) : c.emit aes len (c.leftover len + i) =
      (c.used (c.leftover len)).emit aes (len - c.leftover len) i := by
  have h0 : (c.used (c.leftover len)).leftover (len - c.leftover len) = 0 :=
    leftover_of_zero (used_leftover h hlen).1
  have hi : c.leftover len + i - c.leftover len = i := by omega
  rw [emit, emit, h0, if_neg (by omega), if_neg (Nat.not_lt_zero i), hi, Nat.sub_zero]
  simp only [fullBlocks, tailIv, h0, Nat.sub_zero]
  rfl

/-- Where the call leaves the cipher. -/
theorem advance_used (h : c.lastLocation < 16) (hlen : c.leftover len < len ∨ c.lastLocation = 0) :
    (c.used (c.leftover len)).advance aes (len - c.leftover len) = c.advance aes len := by
  obtain ⟨h1, h2⟩ := used_leftover h hlen
  have h0 : (c.used (c.leftover len)).leftover (len - c.leftover len) = 0 := leftover_of_zero h1
  have h3 : (c.used (c.leftover len)).extraBytes (len - c.leftover len) = c.extraBytes len := by
    rw [extraBytes, extraBytes, h0, Nat.sub_zero]
  have h4 : (c.used (c.leftover len)).fullBlocks (len - c.leftover len) = c.fullBlocks len := by
    rw [fullBlocks, fullBlocks, h0, Nat.sub_zero]
  rw [advance, advance, h3]
  simp only [tailIv, tailWords, h4, h0, h1, h2]
  rfl

/-- A call that does not get beyond the leftover. -/
theorem advance_of_short (h : c.lastLocation < 16) (hlen : len ≤ c.leftover len)
    (hpos : 0 < c.lastLocation) : c.advance aes len = c.used len := by
  have hle : c.leftover len = len := by rw [leftover, if_pos hpos] at *; omega
  have hfit : c.lastLocation + len ≤ 16 := by rw [leftover, if_pos hpos] at hle; omega
  have hextra : c.extraBytes len = 0 := by rw [extraBytes, hle, Nat.sub_self]
  have hfull : c.fullBlocks len = 0 := by rw [fullBlocks, hle, Nat.sub_self]
  have hmod : (c.lastLocation + len) % 16 =
      if 16 ≤ c.lastLocation + len then 0 else c.lastLocation + len := by
    split <;> omega
  rw [advance, if_pos hextra, tailIv, tailWords, hfull, hle, used, ← hmod]
  have h1 : addIvOpenssl c.iv (UInt32.ofNat 0) = c.iv := addIvOpenssl_zero c.iv
  have h2 : addWords c.ivIn (UInt32.ofNat 0) = c.ivIn := addWords_zero c.ivIn
  rw [h1, h2]

/-! ## The right place -/

/-- The cipher is where it should be after `N` bytes of the stream from the counter `v`: both copies
of the counter have counted every block that has been begun, and the last block that has not been
used up is in storage. -/
structure At (aes : Block → Block → Block) (v N : Nat) (c : Core) : Prop where
  inStep : InStep c.iv c.ivIn
  value : counter c.iv = (v + (N + 15) / 16) % 256 ^ 16
  location : c.lastLocation = N % 16
  storage : 0 < N % 16 → c.previousStorage = c.encipher aes (counterBlock (v + N / 16))

namespace At

variable {v N : Nat}

/-- How the pieces of a call lie in the stream. -/
theorem leftover_eq (h : At aes v N c) (len : Nat) :
    c.leftover len = min ((16 - N % 16) % 16) len := by
  rw [leftover, h.location]
  split
  · rename_i hpos
    rw [Nat.mod_eq_of_lt (by omega : 16 - N % 16 < 16)]
  · rename_i hpos
    have h0 : N % 16 = 0 := by omega
    rw [h0]
    simp

theorem counter_words (h : At aes v N c) :
    counter c.ivIn.toBytes = (v + (N + 15) / 16) % 256 ^ 16 := by
  rw [← h.value, show c.iv = c.ivIn.toBytes from h.inStep]

theorem counter_tailIv (h : At aes v N c) (hlen : len < 2 ^ 31) (hsafe : c.CallSafe len) :
    counter (c.tailIv len) = (v + (N + 15) / 16 + c.fullBlocks len) % 256 ^ 16 := by
  have hfull : c.fullBlocks len < 2 ^ 31 := by
    rw [fullBlocks]
    omega
  rw [tailIv, counter_addIvOpenssl _ hfull hsafe, h.inStep.length, h.value, Nat.mod_add_mod]

/-- **The call emits the stream from where the cipher is.** -/
theorem emit_eq (h : At aes v N c) (hlen : len < 2 ^ 31) (hsafe : c.CallSafe len) {i : Nat}
    (hi : i < len) : c.emit aes len i = keystream (c.encipher aes) v (N + i) := by
  have hleft := h.leftover_eq len
  rw [emit]
  split
  · -- the rest of the block that has been begun
    rename_i h1
    have hdiv : (N + i) / 16 = N / 16 := by omega
    have hmod : (N % 16 + i) % 16 = (N + i) % 16 := by omega
    simp only [h.storage (by omega), h.location, keystream, Block.at, hdiv, hmod]
  · rename_i h1
    split
    · -- a whole block
      rw [h.counter_words, keystream_mod, keystream_add]
      congr 1
      omega
    · -- the last block, of which only a part is used
      rename_i h2
      have hfull : c.fullBlocks len = (len - c.leftover len) / 16 := rfl
      have hdiv : v + (N + i) / 16 = v + (N + 15) / 16 + c.fullBlocks len := by omega
      have hmod : (i - c.leftover len) % 16 = (N + i) % 16 := by omega
      rw [blockOf_eq (by rw [tailIv, length_addIvOpenssl, h.inStep.length]),
        h.counter_tailIv hlen hsafe, counterBlock_mod]
      simp only [keystream, Block.at, hdiv, hmod]

/-- Whole blocks at the beginning of a block come from the words, which always count right. -/
theorem emit_whole (h : At aes v N c) (hN : N % 16 = 0) (hlen : len % 16 = 0) {i : Nat}
    (hi : i < len) : c.emit aes len i = keystream (c.encipher aes) v (N + i) := by
  have hleft : c.leftover len = 0 := leftover_of_zero (h.location.trans hN)
  have hfull : c.fullBlocks len = len / 16 := by rw [fullBlocks, hleft, Nat.sub_zero]
  rw [emit, hleft, hfull, if_neg (Nat.not_lt_zero i), Nat.sub_zero, if_pos (by omega),
    h.counter_words, keystream_mod, keystream_add]
  congr 1
  omega

/-- **The call leaves the cipher where it should be.** -/
theorem advance (h : At aes v N c) (hlen : len < 2 ^ 31) (hsafe : c.CallSafe len) :
    At aes v (N + len) (c.advance aes len) := by
  have hleft := h.leftover_eq len
  have hfull : c.fullBlocks len = (len - c.leftover len) / 16 := rfl
  have hextra : c.extraBytes len = (len - c.leftover len) % 16 := rfl
  -- the counting, apart from the counter itself
  have hnone : c.extraBytes len = 0 → (N + 15) / 16 + c.fullBlocks len = (N + len + 15) / 16 ∧
      (N % 16 + c.leftover len) % 16 = (N + len) % 16 ∧
      (0 < (N + len) % 16 → (N + len) / 16 = N / 16 ∧ 0 < N % 16) := by omega
  have hsome : c.extraBytes len ≠ 0 → (N + 15) / 16 + c.fullBlocks len + 1 = (N + len + 15) / 16 ∧
      (N + 15) / 16 + c.fullBlocks len = (N + len) / 16 ∧
      c.extraBytes len = (N + len) % 16 := by omega
  have hstep : InStep (c.tailIv len) (c.tailWords len) := h.inStep.add (by omega) hsafe
  have hval := h.counter_tailIv hlen hsafe
  rw [Core.advance]
  split
  · rename_i h0
    obtain ⟨h1, h2, h3⟩ := hnone h0
    refine ⟨hstep, ?_, ?_, fun hpos => ?_⟩
    · show counter (c.tailIv len) = _
      rw [hval, Nat.add_assoc, h1]
    · show (c.lastLocation + c.leftover len) % 16 = _
      rw [h.location, h2]
    · -- the block in storage is still the one that has been begun
      rw [(h3 hpos).1]
      exact h.storage (h3 hpos).2
  · rename_i h0
    obtain ⟨h1, h2, h3⟩ := hsome h0
    refine ⟨hstep.add (n := 1) (by decide) (carrySafe_of_lt _ (by decide)), ?_, h3, fun _ => ?_⟩
    · show counter (addIvOpenssl (c.tailIv len) 1) = _
      have h4 := counter_addIvOpenssl (c.tailIv len) (n := 1) (by decide)
        (carrySafe_of_lt _ (by decide))
      rw [hstep.length, hval, Nat.mod_add_mod, Nat.add_assoc v, Nat.add_assoc v, h1] at h4
      exact h4
    · show c.encipher aes (blockOf (c.tailIv len)) = _
      rw [blockOf_eq hstep.length, hval, counterBlock_mod, Nat.add_assoc, h2]
      rfl

end At

/-- A new cipher is at the beginning. -/
theorem at_fresh {r : NewReply} {key iv : List UInt8} {base : UInt32} {mode : Int} {c : FpgaAes}
    (hc : fpgaAesNew r key base iv 16 mode = some c) (hiv : iv.length = 16) :
    At aes (counter iv) 0 c.core := by
  rw [fpgaAesNew] at hc
  split at hc
  · obtain rfl := Option.some.inj hc
    have htake : iv.take 16 = iv := List.take_of_length_le (by omega)
    refine ⟨?_, ?_, rfl, fun h => absurd h (by decide)⟩
    · show iv.take 16 = (Words.pack (iv.take 16)).toBytes
      rw [htake, toBytes_pack hiv]
    · show counter (iv.take 16) = (counter iv + 0) % 256 ^ 16
      have hlt := counter_lt iv
      rw [hiv] at hlt
      rw [htake, Nat.add_zero, Nat.mod_eq_of_lt hlt]
  · exact absurd hc (by simp)

end Core
end Zedboard
