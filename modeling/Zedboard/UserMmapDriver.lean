import Mathlib.Data.Nat.Notation

/-!
# The mapping library

`user_mmap_driver.c`, function by function.  `getSharedMemoryArea` and `getUioMemoryArea` ask the
operating system for a window onto a file.  The answers of the system calls they make are an
argument (`OsReply`), and besides their result they return the log of what they acquired and gave
back, so that a caller's bookkeeping can be checked against it.

The four accessors map a window, access one word through it, and give it back.  They return what
they do, in order, and the value they return; there is none if they use a null pointer.

The offset that `mmap` takes has 64 bits here, as many as the addresses.  Where it has 32, as on the
32-bit target, so have the physical addresses.
-/

set_option autoImplicit false

namespace Zedboard

/-- `SHARED_SIZE`, the length of the shared region. -/
def sharedSize : UInt32 := 0x800000

/-- `BASE_ADDRESS`, the physical address of the shared region. -/
def baseAddressConst : UInt32 := 0x1f410000

/-- `shared_memory_struct`. -/
structure SharedMemory where
  fd : Int
  ptr : Nat
  originalPtr : Nat
  length : UInt32
  offset : UInt32
  pageSize : UInt32
  deriving DecidableEq, Repr

/-- The answers of the operating system to one request for a mapping: `sysconf`, `open`, `mmap`
(`none` is `MAP_FAILED`) and `malloc` (`false` is `NULL`). -/
structure OsReply where
  pageSize : UInt32
  fd : Int
  map : Option Nat
  block : Bool
  deriving DecidableEq, Repr

/-- What the library acquires from the operating system and gives back to it. -/
inductive OsEvent
  | opened (fd : Int)
  | mapped (ptr : Nat) (length : UInt32) (phys : Nat)
  | malloced
  | closed (fd : Int)
  | unmapped (ptr : Nat) (length : UInt32)
  | freed
  deriving DecidableEq, Repr

/-- `getSharedMemoryArea`.  The length asked for plays no part: the window is always two pages. -/
def getSharedMemoryArea (os : OsReply) (sharedMemoryAddress : UInt64) (_length : UInt32) :
    Option SharedMemory × List OsEvent :=
  let mmapLength := 2 * os.pageSize
  if sharedMemoryAddress = 0 then (none, [])
  else if os.fd < 1 then (none, if os.fd = 0 then [.opened 0] else [])
  else
    let pageBase := sharedMemoryAddress / os.pageSize.toUInt64 * os.pageSize.toUInt64
    let pageOffset := (sharedMemoryAddress - pageBase).toUInt32
    match os.map with
    | none => (none, [.opened os.fd, .closed os.fd])
    | some ptr =>
      if os.block then
        (some { fd := os.fd, ptr := ptr + pageOffset.toNat, originalPtr := ptr,
                length := mmapLength, offset := pageOffset, pageSize := os.pageSize },
          [.opened os.fd, .mapped ptr mmapLength pageBase.toNat, .malloced])
      else
        -- the mapping is not undone on this path
        (none, [.opened os.fd, .mapped ptr mmapLength pageBase.toNat, .closed os.fd])

/-- `getUioMemoryArea`, for a file that the answers are about.  `mapFailed` is the value of
`MAP_FAILED`. -/
def getUioMemoryArea (mapFailed : Nat) (os : OsReply) (mmapLength : UInt32) :
    Option SharedMemory × List OsEvent :=
  if os.fd < 1 then (none, if os.fd = 0 then [.opened 0] else [])
  else
    let sharedMemoryAddress : UInt32 := 0
    let pageAddr := sharedMemoryAddress &&& ~~~(os.pageSize - 1)
    let pageOffset := sharedMemoryAddress - pageAddr
    let log := match os.map with
      | some ptr => [.opened os.fd, .mapped ptr mmapLength pageAddr.toNat]
      | none => [.opened os.fd]
    -- the test is for `NULL`, which `MAP_FAILED` is not
    let ptr := os.map.getD mapFailed
    if ptr = 0 then (none, log ++ [.closed os.fd])
    else if os.block then
      (some { fd := os.fd, ptr := ptr + pageOffset.toNat, originalPtr := ptr, length := mmapLength,
              offset := pageOffset, pageSize := os.pageSize }, log ++ [.malloced])
    else (none, log ++ [.closed os.fd])

/-- `cleanupSharedMemoryPointer`. -/
def cleanupSharedMemoryPointer (mem : SharedMemory) : List OsEvent :=
  [.unmapped mem.originalPtr mem.length, .closed mem.fd, .freed]

/-! ## The accessors -/

/-- What an accessor does: a call of the system, or an access to the word at a pointer. -/
inductive Act
  | os (x : OsEvent)
  | load (p : Int)
  | store (p : Int) (v : UInt32)
  deriving DecidableEq, Repr

/-- The acts of an accessor, and the value that it returns, if it returns. -/
abbrev Trace := List Act × Option Int

/-- One access through an area, and its end. -/
def accessThrough (mem : SharedMemory) (log : List OsEvent) (access : Act) : Trace :=
  (log.map .os ++ access :: (cleanupSharedMemoryPointer mem).map .os, some 0)

/-- `getValueAtAddress`. -/
def getValueAtAddress (os : OsReply) (gpioAddr : UInt64) : Trace :=
  match getSharedMemoryArea os gpioAddr 0 with
  | (none, log) => (log.map .os, some (-1))
  | (some mem, log) => accessThrough mem log (.load mem.ptr)

/-- `writeValueToAddress`.  It does not test for the null pointer. -/
def writeValueToAddress (os : OsReply) (value : UInt32) (gpioAddr : UInt64) : Trace :=
  match getSharedMemoryArea os gpioAddr 4 with
  | (none, log) => (log.map .os, none)
  | (some mem, log) => accessThrough mem log (.store mem.ptr value)

/-- `getValueAtAddressUio`. -/
def getValueAtAddressUio (mapFailed : Nat) (os : OsReply) (offset : Int) (length : UInt32) :
    Trace :=
  match getUioMemoryArea mapFailed os length with
  | (none, log) => (log.map .os, some (-1))
  | (some mem, log) => accessThrough mem log (.load (mem.ptr + 4 * offset))

/-- `writeValueToAddressUio`.  It does not test for the null pointer. -/
def writeValueToAddressUio (mapFailed : Nat) (os : OsReply) (value : UInt32) (offset : Int)
    (length : UInt32) : Trace :=
  match getUioMemoryArea mapFailed os length with
  | (none, log) => (log.map .os, none)
  | (some mem, log) => accessThrough mem log (.store (mem.ptr + 4 * offset) value)

end Zedboard
