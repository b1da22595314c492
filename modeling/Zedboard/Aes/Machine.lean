import Zedboard.Aes.Defs

/-!
# The machine

What the functions of `aes_fpga.c` run on: the allocator and its clients, the physical memory and
the AES core.

The pool is the window of physical memory that begins at `base_address`; a physical address in the
window is a byte of the pool, and every other one is a byte of `dark`.  Physical addresses have 32
bits and wrap.  The core reads and writes through the bus, the processor through its pointers.

The machine also keeps a record of the jobs that have been started, each with the ledger of that
moment.

A program may end early: it aborts, it uses a null pointer, or one of its loops runs out of fuel.
-/

set_option autoImplicit false

namespace Zedboard

/-- What the programs need from outside: the target, the block cipher of the core, the fuel for the
loops of the allocator, and how the system calls come out. -/
structure Platform where
  env : Env
  aes : Block → Block → Block
  fuel : Nat
  os : OsReply

/-- A job, and what the clients of the allocator held when it started. -/
structure Started where
  job : Job
  live : List (Nat × Nat)
  deriving DecidableEq

/-- The state of everything. -/
structure Machine where
  session : Memmgr.Session
  dark : UInt32 → UInt8
  regs : Reg → UInt32
  jobs : List Started

/-- The ways in which a program does not return. -/
inductive Halt
  | abort
  | segv
  | hang
  deriving DecidableEq, Repr

/-- A program. -/
abbrev Prog := EStateM Halt Machine

namespace Machine

/-! ## The bus -/

/-- The distance of a physical address from the beginning of the window. -/
def offset (m : Machine) (a : UInt32) : Nat := (a - m.session.st.baseAddress).toNat

/-- The physical address lies in the window. -/
def inWindow (m : Machine) (a : UInt32) : Bool :=
  m.session.st.pool ≠ 0 && decide (m.offset a < m.session.st.poolSize.toNat)

/-- The byte at a physical address. -/
def busRead (m : Machine) (a : UInt32) : UInt8 :=
  if m.inWindow a then m.session.st.mem (m.session.st.pool + m.offset a) else m.dark a

/-- The block at a physical address. -/
def busBlock (m : Machine) (a : UInt32) : Block := fun i => m.busRead (a + UInt32.ofNat i)

/-- The machine with another memory. -/
def withMem (m : Machine) (mem : Mem) : Machine :=
  { m with session := { m.session with st := { m.session.st with mem } } }

/-- Store `n` bytes from a physical address on. -/
def busFill (m : Machine) (a : UInt32) (n : Nat) (f : Nat → UInt8) : Machine :=
  { m.withMem fun x =>
      let p := m.session.st.baseAddress + UInt32.ofNat (x - m.session.st.pool)
      if m.session.st.pool ≠ 0 ∧ m.session.st.pool ≤ x ∧
          x < m.session.st.pool + m.session.st.poolSize.toNat ∧ (p - a).toNat < n then
        f (p - a).toNat
      else m.session.st.mem x with
    dark := fun p => if ¬m.inWindow p ∧ (p - a).toNat < n then f (p - a).toNat else m.dark p }

/-! ## Jobs -/

/-- The first `n` blocks of a job, one after the other. -/
def runJob (aes : Block → Block → Block) (j : Job) : Nat → Machine → Machine
  | 0, m => m
  | n + 1, m =>
    let m := runJob aes j n m
    let b := j.block aes n (m.busBlock (j.source + UInt32.ofNat (16 * n)))
    m.busFill (j.dest + UInt32.ofNat (16 * n)) 16 b.at

/-- The accesses of a call of `aes_encrypt`, and the job that the core does then. -/
def execute (aes : Block → Block → Block) (m : Machine) (as : List (Access UInt32)) : Machine :=
  let regs := as.foldl Access.apply m.regs
  let j := jobOf regs
  runJob aes j (j.numBytes.toNat / 16) { m with regs, jobs := m.jobs ++ [⟨j, m.session.live⟩] }

end Machine

/-! ## Steps of a program -/

namespace Prog

/-- A call of `memmgr_alloc`. -/
def memmgrAlloc (P : Platform) (nbytes : Nat) : Prog Nat := fun m =>
  match Memmgr.memmgrAlloc P.env P.fuel m.session.st nbytes with
  | none => .error .hang m
  | some (p, s) =>
    let live := if p = 0 then m.session.live else (p, nbytes) :: m.session.live
    .ok p { m with session := ⟨s, live⟩ }

/-- A call of `memmgr_free`. -/
def memmgrFree (P : Platform) (ap : Nat) : Prog Unit := fun m =>
  match Memmgr.memmgrFree P.env P.fuel m.session.st ap with
  | none => .error .hang m
  | some s => .ok () { m with session := ⟨s, m.session.live.eraseP fun x => x.1 = ap⟩ }

/-- A call of `memmgr_assert`. -/
def memmgrAssert (P : Platform) (ap : Nat) : Prog Unit := fun m =>
  if Memmgr.memmgrAssert P.env m.session.st ap then .ok () m else .error .abort m

/-- A call of `lookupBufferPhysicalAddress`. -/
def lookup (ap : Nat) : Prog UInt32 := fun m =>
  .ok (Memmgr.lookupBufferPhysicalAddress m.session.st ap) m

/-- `memcpy` of `n` bytes to the pointer `p`. -/
def copyTo (p n : Nat) (f : Nat → UInt8) : Prog Unit := fun m =>
  if p = 0 ∧ n ≠ 0 then .error .segv m
  else .ok () (m.withMem (m.session.st.mem.fill p n f))

/-- `memcpy` of a block from the pointer `p`. -/
def copyFrom (p : Nat) : Prog Block := fun m =>
  if p = 0 then .error .segv m else .ok (fun i => m.session.st.mem (p + i)) m

/-- The loop `output[i] = input[i] ^ ks[i]` for `i` below `n`. -/
def xorMem (mem : Mem) (output input : Nat) (ks : Nat → UInt8) : Nat → Mem
  | 0 => mem
  | n + 1 =>
    let mem := xorMem mem output input ks n
    Function.update mem (output + n) (mem (input + n) ^^^ ks n)

/-- The loop `output[i] = input[i] ^ ks[i]` as a step of a program. -/
def xorLoop (output input : Nat) (ks : Nat → UInt8) (n : Nat) : Prog Unit := fun m =>
  .ok () (m.withMem (xorMem m.session.st.mem output input ks n))

/-- `aes_encrypt`: the accesses, the job, and 1 in any case. -/
def aesEncrypt (P : Platform) (c : FpgaAes) (len : Nat) (source dest : UInt32) (mode : Int) :
    Prog FpgaAes := fun m =>
  .ok (c.afterEncrypt len source dest mode)
    (m.execute P.aes (aesAccesses c len source dest mode))

end Prog

end Zedboard
