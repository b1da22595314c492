import Zedboard.Aes.Machine

/-!
# The encryption functions

`aes_fpga.c`, function by function, as programs of the machine.  A cipher is passed and returned
where the source changes it through a pointer; the other buffers are memory.

`Aes_encrypt_ctr_hw` is cut where its text is: what is left of the last keystream block, the whole
blocks that go to the core (`ctrRest`), and the last partial block (`ctrTail`).
-/

set_option autoImplicit false

namespace Zedboard

open Prog

/-- A number converted to `int`. -/
def cInt (n : Nat) : Int := (BitVec.ofNat 32 n).toInt

/-- An integer as an `int`: the result of an operation on `int`s. -/
def wrapInt (z : Int) : Int := (BitVec.ofInt 32 z).toInt

/-- An `int` converted to `size_t`. -/
def Env.sizeT (e : Env) (z : Int) : Nat := (z % e.range).toNat

theorem cInt_of_lt {n : Nat} (h : n < 2 ^ 31) : cInt n = n := by
  rw [cInt, BitVec.toInt_eq_toNat_of_lt (by rw [BitVec.toNat_ofNat]; omega), BitVec.toNat_ofNat,
    Nat.mod_eq_of_lt (by omega)]

theorem Env.sizeT_of_lt {e : Env} {n : Nat} (h : n < 2 ^ 32) : e.sizeT n = n := by
  have hr : 2 ^ 32 ≤ e.range := by
    rw [Env.range, Env.word]
    cases e.abi
    · decide
    · decide
  rw [Env.sizeT, Int.emod_eq_of_lt (by omega) (by omega), Int.toNat_natCast]

theorem ofInt_natCast (n : Nat) : UInt32.ofInt n = UInt32.ofNat n := by
  have h : ((n : Int) % 2 ^ 32).toNat = n % 2 ^ 32 := by omega
  rw [UInt32.ofInt, h]
  exact UInt32.ofNat_mod_size

variable (P : Platform)

/-! ## Counter mode in the core -/

/-- The branch of `Aes_encrypt_ctr_hw` for extra bytes, which begin at `input` and `output`: the
counter is enciphered by a job of its own between two scratch blocks. -/
def ctrTail (c : FpgaAes) (input output extraBytes : Nat) : Prog FpgaAes := do
  let temp ← memmgrAlloc P 16
  let tempOut ← memmgrAlloc P 16
  copyTo temp 16 fun i => c.iv.getD i 0
  let tempAddress ← lookup temp
  let tempOutAddress ← lookup tempOut
  let c ← aesEncrypt P c 16 tempAddress tempOutAddress 0
  let storage ← copyFrom tempOut
  let c := { c with previousStorage := storage }
  memmgrFree P temp
  memmgrFree P tempOut
  xorLoop output input (fun i => c.previousStorage.at i) extraBytes
  let c := addIvCipher c 1
  return { c with lastLocation := extraBytes }

/-- `Aes_encrypt_ctr_hw` from the byte `i` on, with no keystream block begun. -/
def ctrRest (c : FpgaAes) (input len output : Nat) (src dest : UInt32) (i : Nat) :
    Prog (Int × FpgaAes) := do
  let remainingLength := cInt (len - i)
  let extraBytes := remainingLength.tmod 16
  let fullBlocks := remainingLength.tdiv 16
  let newSrc := src + UInt32.ofNat i
  let newDest := dest + UInt32.ofNat i
  let offset := (fullBlocks * 16).toNat
  let c :=
    { c with
      updateIv := true
      updateKey := true
      updateSourceAddress := true
      updateDestAddress := true
      updateNumBytes := true
      updateMode := true }
  let c ← aesEncrypt P c (P.env.sizeT (fullBlocks * 16)) newSrc newDest 2
  let c := addIvCipher c (UInt32.ofInt fullBlocks)
  if 0 < extraBytes then
    let c ← ctrTail P c (input + i + offset) (output + i + offset) extraBytes.toNat
    return (cInt len, c)
  else
    return (cInt len, c)

/-- `Aes_encrypt_ctr_hw`. -/
def aesEncryptCtrHw (c : FpgaAes) (input len output : Nat) (src dest : UInt32) :
    Prog (Int × FpgaAes) := do
  let c :=
    { c with
      bytesProcessed := c.bytesProcessed + UInt32.ofNat len
      currentBlockStart := if c.currentBlockStart = 0 then src else c.currentBlockStart }
  if 0 < c.lastLocation then
    -- use up what is left of the last keystream block
    let blockRemaining := 16 - c.lastLocation
    let numToIncrement := if blockRemaining < len then blockRemaining else len
    xorLoop output input (fun i => c.previousStorage.at (c.lastLocation + i)) numToIncrement
    let location := c.lastLocation + numToIncrement
    let c := { c with lastLocation := if 16 ≤ location then 0 else location }
    if len ≤ numToIncrement then
      return (cInt len, c)
    else
      ctrRest P c input len output src dest numToIncrement
  else
    ctrRest P c input len output src dest 0

/-- `Aes_encrypt_memmgr`. -/
def aesEncryptMemmgr (c : FpgaAes) (output input len : Nat) : Prog (Int × FpgaAes) := do
  memmgrAssert P input
  memmgrAssert P output
  let src ← lookup input
  let dest ← lookup output
  aesEncryptCtrHw P c input len output src dest

/-- `Aes_encrypt_memmgr_with_iv`.  The lengths are `unsigned`, so the sum in the assertion wraps. -/
def aesEncryptMemmgrWithIv (c : FpgaAes) (output : Nat) (outputLen : UInt32) (input : Nat)
    (inputLen : UInt32) : Prog (Int × FpgaAes) :=
  if outputLen < inputLen + UInt32.ofNat c.ivLength then throw .abort
  else do
    copyTo output c.ivLength fun i => c.iv.getD i 0
    let r ← aesEncryptMemmgr P c (output + c.ivLength) input inputLen.toNat
    return (if 0 < r.1 then wrapInt (r.1 + c.ivLength) else r.1, r.2)

/-! ## Single jobs -/

/-- `Aes_encrypt_run`. -/
def aesEncryptRun (c : FpgaAes) (len : Nat) (src dest : UInt32) (mode : Int) : Prog FpgaAes :=
  aesEncrypt P c len src dest mode

/-- A store of `n` bytes at the index `k` of an area that `getSharedMemoryArea` returned for the
physical address `base`. -/
def copyToArea (mem : SharedMemory) (base : UInt32) (k n : Nat) (f : Nat → UInt8) : Prog Unit :=
  fun m =>
    if mem.length.toNat < mem.offset.toNat + k + n then .error .segv m
    else .ok () (m.busFill (base + UInt32.ofNat k) n f)

/-- The `n` bytes at the index `k` of such an area, copied to the pointer `p`. -/
def copyFromArea (mem : SharedMemory) (base : UInt32) (k n p : Nat) : Prog Unit := fun m =>
  if mem.length.toNat < mem.offset.toNat + k + n then .error .segv m
  else copyTo p n (fun i => m.busRead (base + UInt32.ofNat (k + i))) m

/-- `Aes_encrypt_memcpy`. -/
def aesEncryptMemcpy (c : FpgaAes) (output input len : Nat) : Prog (Int × FpgaAes) := do
  match (getSharedMemoryArea P.os c.sharedMemBase.toUInt64 (UInt32.ofNat (len * 3))).1 with
  | none => return (-1, c)
  | some mem =>
    let src := c.sharedMemBase
    let dest := src + UInt32.ofNat len
    let m ← get
    copyToArea mem src 0 len fun i => m.session.st.mem (input + i)
    let c ← aesEncryptRun P c len src dest 0
    copyFromArea mem src len len output
    return (0, c)

/-! ## Modes driven by the software -/

/-- The encryption that the mode of `Aes_encrypt_cbc_run` selects. -/
def cbcEncrypt (mode : Int) (c : FpgaAes) (output input len : Nat) : Prog (Int × FpgaAes) :=
  if mode = 1 then aesEncryptMemcpy P c output input len else aesEncryptMemmgr P c output input len

/-- The loop of `Aes_encrypt_cbc_run`, for `n` more blocks; `i` counts from `input`.  The function
passes `current_data`, an array on its stack at the address `stack`. -/
def cbcLoop (stack : Nat) (mode : Int) (input : Nat) :
    Nat → FpgaAes → Nat → Nat → Nat → Prog (Int × FpgaAes)
  | 0, c, _, _, _ => return (0, c)
  | n + 1, c, i, currentIv, currentOut => do
    let m ← get
    copyTo stack 16 fun j =>
      m.session.st.mem (currentIv + j) ^^^ m.session.st.mem (input + i * 16 + j)
    let r ← cbcEncrypt P mode c currentOut stack 16
    if r.1 ≠ 0 then return (-1, r.2)
    else cbcLoop stack mode input n r.2 (i + 1) currentOut (currentOut + 16)

/-- `Aes_encrypt_cbc_run`. -/
def aesEncryptCbcRun (stack : Nat) (c : FpgaAes) (input len output iv : Nat) (mode : Int) :
    Prog (Int × FpgaAes) :=
  cbcLoop P stack mode input (cInt (len / 16)).toNat c 0 iv output

/-- The loop of `Aes_encrypt_ctr_run`, for `n` more blocks. -/
def ctrRunLoop : Nat → FpgaAes → List UInt8 → Nat → Nat → UInt32 → UInt32 → Prog FpgaAes
  | 0, c, _, _, _, _, _ => return c
  | n + 1, c, iv, currentIn, currentOut, currentSrc, currentDest => do
    let m ← get
    let temp := fun j => m.session.st.mem (currentIn + j)
    copyTo currentIn 16 fun j => iv.getD j 0
    let c ← aesEncryptRun P c 16 currentSrc currentDest 0
    xorLoop currentOut currentOut temp 16
    copyTo currentIn 16 temp
    ctrRunLoop n c (incrementIv iv) (currentIn + 16) (currentOut + 16) (currentSrc + 16)
      (currentDest + 16)

/-- `Aes_encrypt_ctr_run`. -/
def aesEncryptCtrRun (c : FpgaAes) (input len output : Nat) (src dest : UInt32) :
    Prog (Int × FpgaAes) := do
  let c ← ctrRunLoop P (cInt (len / 16)).toNat c c.iv input output src dest
  return (0, c)

end Zedboard
