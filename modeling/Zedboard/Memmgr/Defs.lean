import Zedboard.Lib.Bytes
import Zedboard.Lib.Ring
import Zedboard.Lib.Tiling
import Zedboard.UserMmapDriver

/-!
# The pool allocator

`memmgr.c`, function by function.  The allocator keeps a header in front of every block, in the
same memory the clients write to, so the state is the file's static variables together with that
memory; header fields are read and written through `Mem.readLE` and `Mem.writeLE`.

Addresses are natural numbers and `0` is the null pointer.  Pointer arithmetic wraps where the
machine's does (`Env.ptrAdd`), and `unsigned long` arithmetic wraps explicitly (`Env.ulong`).  The
mutex is not part of this model.

A loop of the source takes a `fuel` argument and `none` means that it was not done when the fuel
ran out.
-/

set_option autoImplicit false

namespace Zedboard

/-- The two targets: the 32-bit Zynq-7000 and the 64-bit ZynqMP. -/
inductive Abi
  | ilp32
  | lp64
  deriving DecidableEq, Repr

/-- The size of an `unsigned long`, and of a pointer. -/
def Abi.sizeofLong : Abi → Nat
  | ilp32 => 4
  | lp64 => 8

/-- `sizeof(mem_header_t)`: two words and three `unsigned`s, rounded up to the alignment. -/
def Abi.sizeofHeader : Abi → Nat
  | ilp32 => 20
  | lp64 => 32

/-- What the linker decides: the target and the address of the static `base`. -/
structure Env where
  abi : Abi
  base : Nat
  /-- The address of an object is not null. -/
  base_pos : 0 < base
  /-- The object lies in the address space. -/
  base_fits : base + abi.sizeofHeader < 256 ^ abi.sizeofLong

namespace Env

variable (e : Env)

/-- `sizeof(mem_header_t)`. -/
def hdr : Nat := e.abi.sizeofHeader

/-- The size of an `unsigned long`, and of a pointer. -/
def word : Nat := e.abi.sizeofLong

/-- The number of values of an `unsigned long`. -/
def range : Nat := 256 ^ e.word

/-- A value converted to `unsigned long`. -/
def ulong (n : Nat) : Nat := n % e.range

/-- `p + n` for a pointer `p` to a header. -/
def ptrAdd (p n : Nat) : Nat := (p + n * e.hdr) % e.range

/-- `p - 1` for a pointer `p` to a header. -/
def ptrPred (p : Nat) : Nat := (p + e.range - e.hdr) % e.range

/-- A 32-bit target that has `base` at the address `0x1000`. -/
def zynq : Env := ⟨.ilp32, 0x1000, by decide, by decide⟩

end Env

/-- The header nonces. -/
def nonce : Nat := 99999999

/-- The second header nonce. -/
def nonce2 : Nat := 298709375

/-- `MIN_POOL_ALLOC_QUANTAS`. -/
def minPoolAllocQuantas : Nat := 16

namespace Memmgr

/-- The static variables of `memmgr.c`, and the memory. -/
structure State where
  mem : Mem
  largestAllocation : UInt32
  freep : Nat
  poolSize : UInt32
  pool : Nat
  baseAddress : UInt32
  poolFreePos : Nat
  session : Nat
  sharedMem : Option SharedMemory

/-- The static variables as the loader leaves them, over a memory. -/
def State.loaded (mem : Mem) : State :=
  { mem, largestAllocation := 0, freep := 0, poolSize := 0, pool := 0, baseAddress := 0,
    poolFreePos := 0, session := 0, sharedMem := none }

variable (e : Env)

/-! ## Header fields -/

namespace State

variable (s : State)

/-- `p->s.next`. -/
def next (p : Nat) : Nat := s.mem.readLE e.word p

/-- `p->s.size`. -/
def size (p : Nat) : Nat := s.mem.readLE e.word (p + e.word)

/-- `p->s.nonce`. -/
def nonceAt (p : Nat) : Nat := s.mem.readLE 4 (p + 2 * e.word)

/-- `p->s.nonce2`. -/
def nonce2At (p : Nat) : Nat := s.mem.readLE 4 (p + 2 * e.word + 4)

/-- `p->s.offset`. -/
def offsetAt (p : Nat) : Nat := s.mem.readLE 4 (p + 2 * e.word + 8)

/-- `p->s.next = v`. -/
def setNext (p v : Nat) : State := { s with mem := s.mem.writeLE e.word p v }

/-- `p->s.size = v`. -/
def setSize (p v : Nat) : State := { s with mem := s.mem.writeLE e.word (p + e.word) v }

/-- `p->s.nonce = v`. -/
def setNonce (p v : Nat) : State := { s with mem := s.mem.writeLE 4 (p + 2 * e.word) v }

/-- `p->s.nonce2 = v`. -/
def setNonce2 (p v : Nat) : State := { s with mem := s.mem.writeLE 4 (p + 2 * e.word + 4) v }

/-- `p->s.offset = v`. -/
def setOffset (p v : Nat) : State := { s with mem := s.mem.writeLE 4 (p + 2 * e.word + 8) v }

end State

/-! ## Opening and closing a session -/

/-- `memmgr_init`. -/
def memmgrInit (s : State) (buffer : Nat) (length baseAddress : UInt32) : State :=
  if s.session = 0 then
    let s := s.setNext e e.base 0
    let s := s.setSize e e.base 0
    let s := s.setNonce e e.base nonce
    let s := s.setNonce2 e e.base nonce2
    { s with freep := 0, poolFreePos := 0, pool := buffer, poolSize := length,
             baseAddress := baseAddress, session := 1 }
  else s

/-- `memmgr_init_check`. -/
def memmgrInitCheck (s : State) (buffer : Nat) (length baseAddress : UInt32) : State :=
  if s.session = 0 then memmgrInit e s buffer length baseAddress else s

/-- `memmgr_init_check_shared_mem`. -/
def memmgrInitCheckSharedMem (os : OsReply) (s : State) (length baseAddress : UInt32) :
    Int × State × List OsEvent :=
  if s.session = 1 then (-2, s, [])
  else match s.sharedMem with
    | some mem => (0, memmgrInitCheck e s mem.ptr length baseAddress, [])
    | none =>
      match getSharedMemoryArea os baseAddressConst.toUInt64 sharedSize with
      | (none, log) => (-1, s, log)
      | (some mem, log) =>
        (0, memmgrInitCheck e { s with sharedMem := some mem } mem.ptr length baseAddress, log)

/-- `memmgr_init_shared_short`. -/
def memmgrInitSharedShort (os : OsReply) (s : State) : Int × State × List OsEvent :=
  memmgrInitCheckSharedMem e os s sharedSize baseAddressConst

/-! ## Freeing -/

/-- `memmgr_free`.  The scan for the place of the block is `seek` with the test of the two
conditions of the loop. -/
def memmgrFree (fuel : Nat) (s : State) (ap : Nat) : Option State :=
  if s.pool = 0 then some s
  else if ap = 0 then some s
  else
    let block := e.ptrPred ap
    match seek (s.next e) (stops (s.next e) block) fuel s.freep with
    | none => none
    | some p =>
      -- try to combine with the higher neighbour
      let s :=
        if e.ptrAdd block (s.size e block) = s.next e p then
          let s := s.setSize e block (e.ulong (s.size e block + s.size e (s.next e p)))
          s.setNext e block (s.next e (s.next e p))
        else s.setNext e block (s.next e p)
      -- try to combine with the lower neighbour
      let s :=
        if e.ptrAdd p (s.size e p) = block then
          let s := s.setSize e p (e.ulong (s.size e p + s.size e block))
          s.setNext e p (s.next e block)
        else s.setNext e p block
      some { s with freep := p }

/-! ## Allocating -/

/-- `get_mem_from_pool`. -/
def getMemFromPool (fuel : Nat) (s : State) (nquantas : Nat) : Option (Nat × State) :=
  if s.pool = 0 then some (0, s)
  else
    let nquantas := if nquantas < minPoolAllocQuantas then minPoolAllocQuantas else nquantas
    let totalReqSize := e.ulong (nquantas * e.hdr)
    if e.ulong (s.poolFreePos + totalReqSize) ≤ s.poolSize.toNat then
      let h := (s.pool + s.poolFreePos) % e.range
      let s := s.setSize e h nquantas
      let s := s.setNonce e h nonce
      let s := s.setNonce2 e h nonce2
      let s := s.setOffset e h (s.poolFreePos + e.hdr)
      match memmgrFree e fuel s (e.ptrAdd h 1) with
      | none => none
      | some s =>
        let s := { s with poolFreePos := e.ulong (s.poolFreePos + totalReqSize) }
        some (s.freep, s)
    else some (0, s)

/-- What `memmgr_alloc` does once the block `p`, the successor of `prevp`, is big enough. -/
def take (nbytes nquantas : Nat) (s : State) (prevp p : Nat) : Nat × State :=
  let r : Nat × State :=
    if s.size e p = nquantas then (p, s.setNext e prevp (s.next e p))
    else
      let s := s.setSize e p (s.size e p - nquantas)
      let tail := e.ptrAdd p (s.size e p)
      (tail, s.setSize e tail nquantas)
  let s := { r.2 with freep := prevp }
  let s :=
    if s.largestAllocation.toNat < nbytes then
      { s with largestAllocation := UInt32.ofNat nbytes }
    else s
  (e.ptrAdd r.1 1, s)

/-- The search loop of `memmgr_alloc`; each round takes one unit of the loop's own fuel, the scan
inside `getMemFromPool` has `scanFuel`. -/
def allocLoop (scanFuel nbytes nquantas : Nat) : Nat → State → Nat → Nat → Option (Nat × State)
  | 0, _, _, _ => none
  | fuel + 1, s, prevp, p =>
    if nquantas ≤ s.size e p then some (take e nbytes nquantas s prevp p)
    else if p = s.freep then
      match getMemFromPool e scanFuel s nquantas with
      | none => none
      | some (q, s) =>
        if q = 0 then some (0, s)
        else allocLoop scanFuel nbytes nquantas fuel s q (s.next e q)
    else allocLoop scanFuel nbytes nquantas fuel s p (s.next e p)

/-- The number of quanta `memmgr_alloc` looks for: enough for the bytes, and the header. -/
def quantas (nbytes : Nat) : Nat := e.ulong (nbytes + e.hdr - 1) / e.hdr + 1

/-- The degenerate block of size 0 from which the first `memmgr_alloc` starts the free list. -/
def startList (s : State) : State :=
  if s.freep = 0 then
    let s := { s.setNext e e.base e.base with freep := e.base }
    s.setSize e e.base 0
  else s

/-- `memmgr_alloc`. -/
def memmgrAlloc (fuel : Nat) (s : State) (nbytes : Nat) : Option (Nat × State) :=
  if s.pool = 0 then some (0, s)
  else if s.session = 0 then some (0, s)
  else
    let s := startList e s
    allocLoop e fuel nbytes (quantas e nbytes) fuel s s.freep (s.next e s.freep)

/-! ## The other entry points -/

/-- `lookupBufferPhysicalAddress`. -/
def lookupBufferPhysicalAddress (s : State) (ap : Nat) : UInt32 :=
  if s.pool = 0 then -1
  else s.baseAddress + (UInt32.ofNat ap - UInt32.ofNat s.pool)

/-- The loop of `memmgr_assert` from its counter `i` on, with `n` rounds to go: is there a place
where neither nonce is the header's? -/
def assertLoop (s : State) (ap : Nat) : Nat → Nat → Bool
  | 0, _ => false
  | n + 1, i =>
    let block := (ap + (e.range - i % e.range) * e.hdr) % e.range
    if s.nonceAt e block ≠ nonce ∧ s.nonce2At e block ≠ nonce2 then true
    else assertLoop s ap n (i + 1)

/-- `memmgr_assert`: `true` when it returns, `false` when it aborts. -/
def memmgrAssert (s : State) (ap : Nat) : Bool :=
  if s.pool = 0 then false
  else
    let basePointer := UInt32.ofNat s.pool
    let poolEnd := basePointer + s.poolSize
    let currentPointer := UInt32.ofNat ap
    if poolEnd < currentPointer ∨ currentPointer < basePointer then false
    else assertLoop e s ap s.largestAllocation.toNat 0

/-- What `memmgr_print_stats` prints: the address and size of every block of the heap, then the
address, size and successor of every block of the free list. -/
def memmgrPrintStats (fuel : Nat) (s : State) :
    Option (List (Nat × Nat) × List (Nat × Nat × Nat)) :=
  if s.pool = 0 then some ([], [])
  else do
    let heap ← sweep (fun p => e.ptrAdd p (s.size e p)) ((s.pool + s.poolFreePos) % e.range) fuel
      s.pool
    let free ← if s.freep = 0 then some [] else lap (s.next e) s.freep fuel s.freep
    some (heap.1.map fun p => (p, s.size e p), free.map fun p => (p, s.size e p, s.next e p))

/-- `memmgr_destroy`. -/
def memmgrDestroy (s : State) : State × List OsEvent :=
  let log := match s.sharedMem with
    | some mem => cleanupSharedMemoryPointer mem
    | none => []
  let s := s.setNext e e.base 0
  let s := s.setSize e e.base 0
  ({ s with session := 0, sharedMem := none, poolSize := 0, pool := 0, freep := 0,
            poolFreePos := 0, baseAddress := 0 }, log)

end Memmgr
end Zedboard
