import Zedboard.Aes.Counter
import Zedboard.Lib.Bytes
import Zedboard.Lib.Crc
import Zedboard.UserMmapDriver

/-!
# The key programmer

`zcu102_program_bbram.c`: a key of 32 bytes and its check are copied into the registers of the
battery-backed memory.  The registers are memory here, at the pointer that `getSharedMemoryArea`
returns; what the program prints is left out.

`crcSlow` is the shift register of `Zedboard.Lib.Crc` and leaves the remainder of the key
(`isRemainder_crcSlow`).  The loop that should copy the four bytes of it has no index on its left
side, so that it stores all four at the first place: `bbram_image` says for which keys and for which
earlier contents the image is right all the same.
-/

set_option autoImplicit false

namespace Zedboard

open Polynomial

/-! ## The program -/

/-- `BBRAM_BASE`. -/
def bbramBase : UInt64 := 0xFF0E0000

/-- `BBRAM_LENGTH`. -/
def bbramLength : UInt32 := 0x48

/-- `BBRAM_PROGRAM`. -/
def bbramProgram : Nat := 0x8

/-- `BBRAM_KEY`. -/
def bbramKey : Nat := 0x10

/-- `BBRAM_PROGRAM_MAGIC`. -/
def bbramProgramMagic : List UInt8 := [0x75, 0x7B, 0xDF, 0x0D]

/-- `POLYNOMIAL`. -/
def polynomial : UInt32 := 0xD8

/-- `TOPBIT`. -/
def topbit : UInt32 := 0x80000000

/-- The inner loop of `crcSlow`, for `bit` more bits. -/
def crcBits : Nat → UInt32 → UInt32
  | 0, remainder => remainder
  | bit + 1, remainder =>
    crcBits bit (if remainder &&& topbit ≠ 0 then (remainder <<< 1) ^^^ polynomial
      else remainder <<< 1)

/-- `crcSlow`. -/
def crcSlow (message : List UInt8) (nBytes : Nat) : UInt32 :=
  (List.range nBytes).foldl
    (fun remainder byte => crcBits 8 (remainder ^^^ ((message.getD byte 0).toUInt32 <<< 24))) 0

/-- What `main` does with the registers at `bbramReg`, with the key in place of `STATIC_KEY`. -/
def programKey (key : List UInt8) (bbramReg : Nat) (mem : Mem) : Mem :=
  let mem := (List.range 4).foldl (fun mem i =>
    Function.update mem (bbramReg + bbramProgram + i) (bbramProgramMagic.getD i 0)) mem
  let crcKey := crcSlow key 32
  let mem := (List.range 32).foldl (fun mem i =>
    Function.update mem (bbramReg + bbramKey + i) (key.getD i 0)) mem
  (List.range 4).foldl (fun mem i =>
    Function.update mem (bbramReg + bbramKey + 32) ((le4 crcKey).getD i 0)) mem

/-- `main`.  It does not test for the null pointer. -/
def zcu102ProgramBbram (os : OsReply) (key : List UInt8) (mem : Mem) : Option Mem :=
  (getSharedMemoryArea os bbramBase bbramLength).1.map fun area => programKey key area.ptr mem

/-! ## The check -/

/-- The word is the remainder of the key times `X ^ 32`, the most significant bit of each byte
first. -/
def IsRemainder (key : List UInt8) (w : UInt32) : Prop :=
  wordPoly w.toBitVec =
    (messagePoly (key.map UInt8.toBitVec) * X ^ 32) %ₘ (X ^ 32 + X ^ 7 + X ^ 6 + X ^ 4 + X ^ 3)

/-- There is one such word. -/
theorem IsRemainder.unique {key : List UInt8} {w w' : UInt32} (h : IsRemainder key w)
    (h' : IsRemainder key w') : w = w' :=
  UInt32.toBitVec_inj.1 (wordPoly_injective (h.trans h'.symm))

theorem wordPoly_one : wordPoly 1#1 = 1 := by
  ext k
  rw [coeff_wordPoly, coeff_one]
  rcases k with - | k
  · rfl
  · rw [BitVec.getLsbD_of_ge _ _ (by omega)]
    rfl

theorem generator_polynomial :
    generator polynomial.toBitVec = X ^ 32 + X ^ 7 + X ^ 6 + X ^ 4 + X ^ 3 := by
  have hbits : polynomial.toBitVec = (1#1).setWidth 32 <<< 7 ^^^ (1#1).setWidth 32 <<< 6 ^^^
      (1#1).setWidth 32 <<< 4 ^^^ (1#1).setWidth 32 <<< 3 := by decide
  rw [generator, hbits, wordPoly_xor, wordPoly_xor, wordPoly_xor,
    wordPoly_setWidth_shiftLeft _ (by decide), wordPoly_setWidth_shiftLeft _ (by decide),
    wordPoly_setWidth_shiftLeft _ (by decide), wordPoly_setWidth_shiftLeft _ (by decide),
    wordPoly_one]
  ring

/-- The test for the top bit. -/
theorem and_topbit (r : UInt32) : r &&& topbit ≠ 0 ↔ r.toBitVec.msb := by
  have htwo : topbit.toBitVec = BitVec.twoPow 32 31 := by decide
  rw [Ne, ← UInt32.toBitVec_inj, UInt32.toBitVec_and, htwo, BitVec.and_twoPow,
    BitVec.msb_eq_getLsbD_last]
  simp

theorem toBitVec_crcBits (bit : Nat) : ∀ r : UInt32,
    (crcBits bit r).toBitVec = (crcShift polynomial.toBitVec)^[bit] r.toBitVec := by
  induction bit with
  | zero => exact fun _ => rfl
  | succ bit ih =>
    intro r
    rw [crcBits, ih, Function.iterate_succ_apply, crcShift]
    congr 1
    by_cases htop : r &&& topbit ≠ 0
    · rw [if_pos htop, if_pos ((and_topbit r).1 htop)]
      rfl
    · rw [if_neg htop, if_neg (mt (and_topbit r).2 htop)]
      rfl

/-- **`crcSlow` leaves the remainder.** -/
theorem isRemainder_crcSlow {key : List UInt8} (hkey : key.length = 32) :
    IsRemainder key (crcSlow key 32) := by
  have hstep : ∀ (l : List UInt8) (r : UInt32),
      (l.foldl (fun (r : UInt32) (b : UInt8) => crcBits 8 (r ^^^ (b.toUInt32 <<< 24))) r).toBitVec =
        (l.map UInt8.toBitVec).foldl (crcByte polynomial.toBitVec) r.toBitVec := by
    intro l
    induction l with
    | nil => exact fun _ => rfl
    | cons b l ih =>
      intro r
      rw [List.foldl_cons, ih, List.map_cons, List.foldl_cons, toBitVec_crcBits]
      rfl
  have hbytes : (List.range 32).map (fun i => key.getD i 0) = key := by
    refine List.ext_getElem (by simp [hkey]) fun i h1 h2 => ?_
    rw [List.getElem_map, List.getElem_range, List.getD_eq_getElem _ _ h2]
  have hloop : crcSlow key 32 =
      key.foldl (fun (r : UInt32) (b : UInt8) => crcBits 8 (r ^^^ (b.toUInt32 <<< 24))) 0 := by
    conv_rhs => rw [← hbytes, List.foldl_map]
    rfl
  rw [IsRemainder, ← generator_polynomial, hloop, hstep]
  exact wordPoly_foldl_crcByte (by decide) _ _

/-! ## The image -/

/-- A loop that copies. -/
theorem foldl_update (mem : Mem) (p n : Nat) (f : Nat → UInt8) :
    (List.range n).foldl (fun mem i => Function.update mem (p + i) (f i)) mem = mem.fill p n f := by
  induction n with
  | zero => exact (mem.fill_zero p f).symm
  | succ n ih => rw [List.range_succ, List.foldl_append, ih, List.foldl_cons, List.foldl_nil,
      Mem.fill_succ]

/-- A loop that stores at one place leaves its last byte there. -/
theorem foldl_update_same (mem : Mem) (p n : Nat) (f : Nat → UInt8) :
    (List.range (n + 1)).foldl (fun mem i => Function.update mem p (f i)) mem =
      Function.update mem p (f n) := by
  induction n with
  | zero => rfl
  | succ n ih => rw [List.range_succ, List.foldl_append, ih, List.foldl_cons, List.foldl_nil,
      Function.update_idem]

/-- What the program leaves at the registers of the key. -/
theorem programKey_eq (key : List UInt8) (reg : Nat) (mem : Mem) :
    (∀ i, i < 32 → programKey key reg mem (reg + bbramKey + i) = key.getD i 0) ∧
      programKey key reg mem (reg + bbramKey + 32) = (le4 (crcSlow key 32)).getD 3 0 ∧
      ∀ i, 0 < i → i < 4 → programKey key reg mem (reg + bbramKey + 32 + i) =
        mem (reg + bbramKey + 32 + i) := by
  have heq : programKey key reg mem = Function.update
      ((mem.fill (reg + bbramProgram) 4 fun i => bbramProgramMagic.getD i 0).fill
        (reg + bbramKey) 32
        fun i => key.getD i 0)
      (reg + bbramKey + 32) ((le4 (crcSlow key 32)).getD 3 0) := by
    rw [programKey, foldl_update, foldl_update, foldl_update_same]
  rw [heq]
  refine ⟨fun i hi => ?_, Function.update_self .., fun i h1 h2 => ?_⟩
  · rw [Function.update_of_ne (by omega), Mem.fill_of_inside _ _ hi]
  · rw [Function.update_of_ne (by omega), Mem.fill_of_outside _ _ (by omega),
      Mem.fill_of_outside _ _ (by rw [bbramKey, bbramProgram]; omega)]

/-- The registers at `reg` have the key and behind it the four bytes of its remainder, the least
significant one first. -/
def ImageRight (key : List UInt8) (reg : Nat) (mem : Mem) : Prop :=
  (∀ i, i < 32 → mem (reg + bbramKey + i) = key.getD i 0) ∧
    ∃ w, IsRemainder key w ∧ ∀ i, i < 4 → mem (reg + bbramKey + 32 + i) = (le4 w).getD i 0

/-- **Exactly when the image is right**: the first and the last byte of the remainder are equal, and
the registers of its other three bytes have contained them before.  The key itself and the check
that the program computes are right in any case. -/
theorem bbram_image {os : OsReply} {area : SharedMemory} (key : List UInt8) (mem : Mem)
    (hkey : key.length = 32)
    (harea : (getSharedMemoryArea os bbramBase bbramLength).1 = some area) :
    IsRemainder key (crcSlow key 32) ∧ ∃ mem', zcu102ProgramBbram os key mem = some mem' ∧
      (∀ i, i < 32 → mem' (area.ptr + bbramKey + i) = key.getD i 0) ∧
      (ImageRight key area.ptr mem' ↔ ∀ w, IsRemainder key w →
        (le4 w).getD 0 0 = (le4 w).getD 3 0 ∧
          ∀ i, 0 < i → i < 4 → mem (area.ptr + bbramKey + 32 + i) = (le4 w).getD i 0) := by
  have hcrc := isRemainder_crcSlow hkey
  obtain ⟨hbytes, hlast, hrest⟩ := programKey_eq key area.ptr mem
  refine ⟨hcrc, programKey key area.ptr mem, by rw [zcu102ProgramBbram, harea]; rfl, hbytes, ?_⟩
  constructor
  · rintro ⟨-, w, hw, himage⟩ w' hw'
    obtain rfl := hw.unique hw'
    obtain rfl := hw.unique hcrc
    refine ⟨?_, fun i h1 h2 => ?_⟩
    · rw [← himage 0 (by decide), Nat.add_zero, hlast]
    · rw [← himage i h2, hrest i h1 h2]
  · intro h
    obtain ⟨hends, hprior⟩ := h _ hcrc
    refine ⟨hbytes, _, hcrc, fun i hi => ?_⟩
    rcases Nat.eq_zero_or_pos i with rfl | hpos
    · rw [Nat.add_zero, hlast, hends]
    · rw [hrest i hpos hi, hprior i hpos hi]

/-- A system that grants the window of the registers. -/
def bbramOs : OsReply := ⟨4096, 3, some 0x40000000, true⟩

theorem bbram_area : (getSharedMemoryArea bbramOs bbramBase bbramLength).1 =
    some ⟨3, 0x40000000, 0x40000000, 0x2000, 0, 4096⟩ := by decide

/-- The bytes from 1 to 28, and four more that make all bytes of the remainder `0x58`. -/
def risingKey : List UInt8 :=
  (List.range 28).map (fun i => UInt8.ofNat (i + 1)) ++ [0x0d, 0x27, 0x73, 0xa6]

theorem crcSlow_rising : crcSlow risingKey 32 = 0x58585858 := by decide +kernel

/-- That key, over registers that are `0x58`. -/
theorem bbram_image_rising : ∃ mem',
    zcu102ProgramBbram bbramOs risingKey (fun _ => 0x58) = some mem' ∧
      ImageRight risingKey 0x40000000 mem' := by
  have hkey : risingKey.length = 32 := by decide
  obtain ⟨hcrc, mem', hrun, -, himage⟩ := bbram_image risingKey (fun _ => 0x58) hkey bbram_area
  refine ⟨mem', hrun, himage.2 fun w hw => ?_⟩
  rw [crcSlow_rising] at hcrc
  obtain rfl := hw.unique hcrc
  have hbyte : ∀ i, i < 4 → (le4 0x58585858).getD i 0 = 0x58 := by decide
  exact ⟨rfl, fun i _ hi => (hbyte i hi).symm⟩

/-- The check of `STATIC_KEY`. -/
theorem crcSlow_static : crcSlow (List.replicate 32 0) 32 = 0 := by decide +kernel

theorem isRemainder_static {w : UInt32} (h : IsRemainder (List.replicate 32 0) w) : w = 0 := by
  have hcrc : IsRemainder (List.replicate 32 0) (crcSlow (List.replicate 32 0) 32) :=
    isRemainder_crcSlow (by decide)
  rw [crcSlow_static] at hcrc
  exact h.unique hcrc

/-- **The check of `STATIC_KEY` is not stored** over registers that are not zero. -/
theorem bbram_image_fails : ¬∀ (key : List UInt8) (mem mem' : Mem), key.length = 32 →
    zcu102ProgramBbram bbramOs key mem = some mem' → ImageRight key 0x40000000 mem' := by
  intro h
  have hrun : zcu102ProgramBbram bbramOs (List.replicate 32 0) (fun _ => 1) =
      some (programKey (List.replicate 32 0) 0x40000000 fun _ => 1) := by
    rw [zcu102ProgramBbram, bbram_area]
    rfl
  obtain ⟨-, w, hw, himage⟩ := h _ _ _ (by decide) hrun
  obtain rfl := isRemainder_static hw
  have hone := himage 1 (by decide)
  rw [(programKey_eq _ _ _).2.2 1 (by decide) (by decide)] at hone
  exact absurd hone (by decide)

end Zedboard
