import Zedboard.Aes.Counter
import Zedboard.Memmgr.Runs

/-!
# The cipher and its device

`FPGA_AES`, the registers of the AES core and the sequence of register accesses that one call of
`aes_encrypt` makes.

The core itself is hardware.  What the library relies on is here: a job has the parameters that the
registers hold when it starts, and treats its message block by block, enciphering the block in mode
0 and combining it with the enciphered counter in mode 2.  The block cipher is a parameter.
-/

set_option autoImplicit false

namespace Zedboard

/-! ## The cipher -/

/-- `FPGA_AES`, less the names and handles of its devices.  `iv` is the buffer `iv` points to. -/
structure FpgaAes where
  sharedMemBase : UInt32
  iv : List UInt8
  ivLength : Nat
  keyIn : Words
  ivIn : Words
  mode : Int
  bytesProcessed : UInt32
  previousStorage : Block
  currentBlockStart : UInt32
  lastLocation : Nat
  lastSource : UInt32
  lastDest : UInt32
  lastMode : Int
  lastBytes : Int
  keyWritten : Bool
  ivWritten : Bool
  updateKey : Bool
  updateSourceAddress : Bool
  updateDestAddress : Bool
  updateNumBytes : Bool
  updateIv : Bool
  updateMode : Bool

/-- How the calls that `fpga_aes_new` makes come out, in order, and what the memory for
`previous_storage` contains. -/
structure NewReply where
  storage : Block
  mallocCipher : Bool
  mallocIv : Bool
  mallocReset : Bool
  initReset : Bool
  mallocAes : Bool
  initAes : Bool

/-- `fpga_aes_new`. -/
def fpgaAesNew (r : NewReply) (key : List UInt8) (sharedMemBase : UInt32) (iv : List UInt8)
    (ivLength : Nat) (mode : Int) : Option FpgaAes :=
  if r.mallocCipher && r.mallocIv && r.mallocReset && r.initReset && r.mallocAes && r.initAes then
    some
      { sharedMemBase, mode, ivLength
        iv := iv.take ivLength
        keyIn := Words.pack key
        ivIn := Words.pack (iv.take ivLength)
        previousStorage := r.storage
        bytesProcessed := 0
        lastLocation := 0
        currentBlockStart := 0
        updateKey := true
        updateSourceAddress := true
        updateDestAddress := true
        updateNumBytes := true
        updateIv := true
        updateMode := true
        keyWritten := false
        ivWritten := false
        lastSource := 0
        lastDest := 0
        lastMode := -1
        lastBytes := -1 }
  else none

/-- `fpga_aes_new_short_16`. -/
def fpgaAesNewShort16 (r : NewReply) (key iv : List UInt8) : Option FpgaAes :=
  fpgaAesNew r key baseAddressConst iv 16 2

/-- `addIvCipher`. -/
def addIvCipher (c : FpgaAes) (num : UInt32) : FpgaAes :=
  { c with iv := addIvOpenssl c.iv num, ivIn := addWords c.ivIn num }

/-! ## The registers -/

/-- The parameters that the core takes. -/
inductive Port
  | sourceAddress
  | keyIn
  | destinationAddress
  | numBytes
  | iv
  | mode
  deriving DecidableEq, Repr

/-- The parameters in the order in which `aes_encrypt` marks them as valid. -/
def Port.all : List Port := [.sourceAddress, .keyIn, .destinationAddress, .numBytes, .iv, .mode]

/-- The data registers of the core: one for each parameter, and four for the key and the counter. -/
inductive Reg
  | sourceAddress
  | keyIn (word : Fin 4)
  | destinationAddress
  | numBytes
  | iv (word : Fin 4)
  | mode
  deriving DecidableEq, Repr

/-- One access to a register, with values of the type `V`. -/
inductive Access (V : Type)
  /-- Read `AP_CTRL`. -/
  | readCtrl
  /-- Write the start bit to `AP_CTRL`. -/
  | start
  | write (r : Reg) (v : V)
  /-- Set the valid bit of a parameter. -/
  | setVld (p : Port)
  deriving DecidableEq, Repr

/-- `XAes_Start`. -/
def xAesStart {V : Type} : List (Access V) := [.readCtrl, .start]

/-- `XAes_Set_key_in_V`. -/
def xAesSetKeyIn (w : Words) : List (Access UInt32) :=
  [.write (.keyIn 0) w.word0, .write (.keyIn 1) w.word1, .write (.keyIn 2) w.word2,
    .write (.keyIn 3) w.word3]

/-- `XAes_Set_iv_V`. -/
def xAesSetIv (w : Words) : List (Access UInt32) :=
  [.write (.iv 0) w.word0, .write (.iv 1) w.word1, .write (.iv 2) w.word2, .write (.iv 3) w.word3]

/-- The bytes that `aes_encrypt` has the core treat: the whole blocks. -/
def dataLength (len : Nat) : UInt32 := UInt32.ofNat (len / 16 * 16)

/-- The register accesses of `aes_encrypt` up to the loop in which it waits. -/
def aesAccesses (c : FpgaAes) (len : Nat) (source dest : UInt32) (mode : Int) :
    List (Access UInt32) :=
  xAesStart ++
  (if c.updateKey then xAesSetKeyIn c.keyIn else []) ++
  (if c.updateSourceAddress then [.write .sourceAddress source] else []) ++
  (if c.updateDestAddress then [.write .destinationAddress dest] else []) ++
  (if c.updateNumBytes then [.write .numBytes (dataLength len)] else []) ++
  (if c.updateIv then xAesSetIv c.ivIn else []) ++
  (if c.updateMode then [.write .mode (UInt32.ofInt mode)] else []) ++
  Port.all.map .setVld

/-- What `aes_encrypt` records in the cipher. -/
def FpgaAes.afterEncrypt (c : FpgaAes) (len : Nat) (source dest : UInt32) (mode : Int) : FpgaAes :=
  { c with
    lastSource := source
    lastDest := dest
    lastMode := mode
    lastBytes := (BitVec.ofNat 32 len).toInt
    keyWritten := c.updateKey || c.keyWritten
    ivWritten := c.updateIv || c.ivWritten }

/-- The data registers after an access. -/
def Access.apply {V : Type} (regs : Reg → V) : Access V → Reg → V
  | .write r v => Function.update regs r v
  | _ => regs

/-! ## Jobs -/

/-- The parameters of a job. -/
structure Job where
  key : Words
  iv : Words
  source : UInt32
  dest : UInt32
  numBytes : UInt32
  mode : UInt32
  deriving DecidableEq, Repr

/-- The job that the registers describe. -/
def jobOf (regs : Reg → UInt32) : Job where
  key := ⟨regs (.keyIn 0), regs (.keyIn 1), regs (.keyIn 2), regs (.keyIn 3)⟩
  iv := ⟨regs (.iv 0), regs (.iv 1), regs (.iv 2), regs (.iv 3)⟩
  source := regs .sourceAddress
  dest := regs .destinationAddress
  numBytes := regs .numBytes
  mode := regs .mode

/-- What the core makes of the block `n` of the message: combined with the enciphered counter in
mode 2, enciphered in mode 0. -/
def Job.block (aes : Block → Block → Block) (j : Job) (n : Nat) (b : Block) : Block :=
  if j.mode = 2 then
    fun i => b i ^^^ aes (blockOf j.key.toBytes) (counterBlock (counter j.iv.toBytes + n)) i
  else aes (blockOf j.key.toBytes) b

/-- All parameters are to be written, as they are in a new cipher. -/
def FpgaAes.Updates (c : FpgaAes) : Prop :=
  c.updateKey ∧ c.updateSourceAddress ∧ c.updateDestAddress ∧ c.updateNumBytes ∧ c.updateIv ∧
    c.updateMode

/-- The job a call of `aes_encrypt` asks for. -/
def jobFor (c : FpgaAes) (len : Nat) (source dest : UInt32) (mode : Int) : Job :=
  ⟨c.keyIn, c.ivIn, source, dest, dataLength len, UInt32.ofInt mode⟩

/-- **When all parameters are written the job is the one that was asked for**, whatever the
registers held before. -/
theorem jobOf_accesses {c : FpgaAes} (h : c.Updates) (len : Nat) (source dest : UInt32) (mode : Int)
    (regs : Reg → UInt32) :
    jobOf ((aesAccesses c len source dest mode).foldl Access.apply regs) =
      jobFor c len source dest mode := by
  obtain ⟨h1, h2, h3, h4, h5, h6⟩ := h
  simp [aesAccesses, h1, h2, h3, h4, h5, h6, xAesStart, xAesSetKeyIn, xAesSetIv, Access.apply,
    jobOf, jobFor, Port.all, Function.update]

end Zedboard
