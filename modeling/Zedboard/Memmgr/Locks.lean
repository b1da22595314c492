import Zedboard.Lib.Outcome
import Zedboard.Memmgr.Fresh

/-!
# The lock

The functions of the allocator again, this time with every call of `pthread_mutex_lock` and
`pthread_mutex_unlock` where the source has it: `lock` stops the program when it would wait for
itself, and `unlock` when there is nothing to unlock.

* `Keeps` says that a program computes what its function does and leaves the mutex as it was; the
  functions that call each other while they hold it are proved from the inside out;
* `lock_discipline` is the result for any run: no call waits for itself, and every call that comes
  back or aborts has undone exactly its own acquisitions.

Only the functions that open a session make the mutex recursive, but without them there is no pool,
and without a pool nothing locks twice.
-/

set_option autoImplicit false

namespace Zedboard
namespace Memmgr

/-! ## The mutex -/

/-- A mutex: how often it has been locked by the thread that holds it, and whether that thread may
lock it again. -/
structure Mutex where
  hold : Nat
  recursive : Bool
  deriving DecidableEq, Repr

/-- The process: the mutex, whether `create_lock_once` has run and `initialized` is set, and the
other variables. -/
structure Process where
  mutex : Mutex
  createLockOnce : Bool
  initialized : Bool
  st : State

/-- The process as the loader leaves it.  A mutex of zeros is unlocked and not recursive. -/
def Process.loaded (mem : Mem) : Process := ⟨⟨0, false⟩, false, false, State.loaded mem⟩

/-- The ways in which a call does not return: it waits for itself, it unlocks what it does not hold,
it aborts, or one of its loops runs out of fuel. -/
inductive LockHalt
  | blocked
  | notHeld
  | aborted
  | hang
  deriving DecidableEq, Repr

namespace Locked

/-- A program of the process. -/
abbrev LockProg := EStateM LockHalt Process

/-- `pthread_mutex_lock(&lock)`. -/
def lock : LockProg Unit := fun p =>
  if p.mutex.hold = 0 ∨ p.mutex.recursive then
    .ok () { p with mutex := ⟨p.mutex.hold + 1, p.mutex.recursive⟩ }
  else .error .blocked p

/-- `pthread_mutex_unlock(&lock)`. -/
def unlock : LockProg Unit := fun p =>
  if p.mutex.hold = 0 then .error .notHeld p
  else .ok () { p with mutex := ⟨p.mutex.hold - 1, p.mutex.recursive⟩ }

/-- `createLock`. -/
def createLock : LockProg Unit := fun p =>
  .ok () { p with mutex := if p.initialized then p.mutex else ⟨0, true⟩, initialized := true }

/-- `pthread_once(&create_lock_once, createLock)`. -/
def pthreadOnce : LockProg Unit := fun p =>
  if p.createLockOnce then .ok () p else createLock { p with createLockOnce := true }

/-- The other variables. -/
def getSt : LockProg State := fun p => .ok p.st p

/-- Set the other variables. -/
def setSt (s : State) : LockProg Unit := fun p => .ok () { p with st := s }

/-! ## The functions -/

section

variable (e : Env) (fuel : Nat)

/-- `memmgr_init`. -/
def memmgrInit (buffer : Nat) (length baseAddress : UInt32) : LockProg Unit := do
  pthreadOnce
  lock
  setSt (Memmgr.memmgrInit e (← getSt) buffer length baseAddress)
  unlock

/-- `memmgr_init_check`. -/
def memmgrInitCheck (buffer : Nat) (length baseAddress : UInt32) : LockProg Unit := do
  pthreadOnce
  lock
  if (← getSt).session = 0 then memmgrInit e buffer length baseAddress
  unlock

/-- `memmgr_init_check_shared_mem`. -/
def memmgrInitCheckSharedMem (os : OsReply) (length baseAddress : UInt32) : LockProg Int := do
  pthreadOnce
  lock
  let s ← getSt
  if s.session = 1 then
    unlock
    return -2
  match s.sharedMem with
  | some mem =>
    memmgrInitCheck e mem.ptr length baseAddress
    unlock
    return 0
  | none =>
    match (getSharedMemoryArea os baseAddressConst.toUInt64 sharedSize).1 with
    | none =>
      unlock
      return -1
    | some mem =>
      setSt { s with sharedMem := some mem }
      memmgrInitCheck e mem.ptr length baseAddress
      unlock
      return 0

/-- `memmgr_init_shared_short`. -/
def memmgrInitSharedShort (os : OsReply) : LockProg Int :=
  memmgrInitCheckSharedMem e os sharedSize baseAddressConst

/-- `memmgr_free`. -/
def memmgrFree (ap : Nat) : LockProg Unit := do
  lock
  let s ← getSt
  if s.pool = 0 then
    unlock
    return
  if ap = 0 then
    unlock
    return
  match Memmgr.memmgrFree e fuel s ap with
  | none => throw .hang
  | some s =>
    setSt s
    unlock

/-- `get_mem_from_pool`. -/
def getMemFromPool (nquantas : Nat) : LockProg Nat := do
  lock
  let s ← getSt
  if s.pool = 0 then
    unlock
    return 0
  let nquantas := if nquantas < minPoolAllocQuantas then minPoolAllocQuantas else nquantas
  let totalReqSize := e.ulong (nquantas * e.hdr)
  if e.ulong (s.poolFreePos + totalReqSize) ≤ s.poolSize.toNat then
    let h := (s.pool + s.poolFreePos) % e.range
    setSt ((((s.setSize e h nquantas).setNonce e h nonce).setNonce2 e h nonce2).setOffset e h
      (s.poolFreePos + e.hdr))
    memmgrFree e fuel (e.ptrAdd h 1)
    let s ← getSt
    setSt { s with poolFreePos := e.ulong (s.poolFreePos + totalReqSize) }
    unlock
    return (← getSt).freep
  else
    unlock
    return 0

/-- The search loop of `memmgr_alloc`. -/
def allocLoop (nbytes nquantas : Nat) : Nat → Nat → Nat → LockProg Nat
  | 0, _, _ => throw .hang
  | rounds + 1, prevp, p => do
    let s ← getSt
    if nquantas ≤ s.size e p then
      let r := take e nbytes nquantas s prevp p
      setSt r.2
      unlock
      return r.1
    else if p = s.freep then
      let q ← getMemFromPool e fuel nquantas
      if q = 0 then
        unlock
        return 0
      allocLoop nbytes nquantas rounds q ((← getSt).next e q)
    else allocLoop nbytes nquantas rounds p (s.next e p)

/-- `memmgr_alloc`. -/
def memmgrAlloc (nbytes : Nat) : LockProg Nat := do
  lock
  let s ← getSt
  if s.pool = 0 then
    unlock
    return 0
  else if s.session = 0 then
    unlock
    return 0
  setSt (startList e s)
  let s ← getSt
  allocLoop e fuel nbytes (quantas e nbytes) fuel s.freep (s.next e s.freep)

/-- `lookupBufferPhysicalAddress`. -/
def lookupBufferPhysicalAddress (ap : Nat) : LockProg UInt32 := do
  lock
  let s ← getSt
  if s.pool = 0 then
    unlock
    return -1
  unlock
  return s.baseAddress + (UInt32.ofNat ap - UInt32.ofNat s.pool)

/-- `memmgr_assert`. -/
def memmgrAssert (ap : Nat) : LockProg Unit := do
  lock
  let s ← getSt
  if s.pool = 0 then
    unlock
    throw .aborted
  let basePointer := UInt32.ofNat s.pool
  let poolEnd := basePointer + s.poolSize
  let currentPointer := UInt32.ofNat ap
  if poolEnd < currentPointer ∨ currentPointer < basePointer then
    unlock
    throw .aborted
  if assertLoop e s ap s.largestAllocation.toNat 0 then
    unlock
    return
  unlock
  throw .aborted

/-- `memmgr_print_stats`. -/
def memmgrPrintStats : LockProg Unit := do
  lock
  let s ← getSt
  if s.pool = 0 then
    unlock
    return
  match Memmgr.memmgrPrintStats e fuel s with
  | none => throw .hang
  | some _ => unlock

/-- `memmgr_destroy`. -/
def memmgrDestroy : LockProg Unit := do
  lock
  setSt (Memmgr.memmgrDestroy e (← getSt)).1
  unlock

end

/-! ## One acquisition -/

/-- The mutex may be locked. -/
def Lockable (p : Process) : Prop := p.mutex.hold = 0 ∨ p.mutex.recursive = true

/-- The process that has locked the mutex once more. -/
def held (p : Process) : Process := { p with mutex := ⟨p.mutex.hold + 1, p.mutex.recursive⟩ }

variable {e : Env} {fuel : Nat} {p : Process} {s : State}

theorem lock_eq (h : Lockable p) : lock p = .ok () (held p) := if_pos h

/-- The last acquisition is undone. -/
theorem unlock_held (p : Process) : unlock (held p) = .ok () p := rfl

theorem getSt_held (p : Process) : getSt (held p) = .ok p.st (held p) := rfl

theorem setSt_held (p : Process) (s : State) :
    setSt s (held p) = .ok () (held { p with st := s }) :=
  rfl

/-- The result is what the function computes, with the mutex as in the process `p`; or there is
none, and the function has none. -/
def Leaves {α : Type} (p : Process) (x : EStateM.Result LockHalt Process α) :
    Option (α × State) → Prop
  | some (a, s) => x = .ok a { p with st := s }
  | none => ∃ q, x = .error .hang q

/-- The program does what the function does, and leaves the mutex as it was. -/
def Keeps {α : Type} (x : LockProg α) (p : Process) (r : Option (α × State)) : Prop :=
  Leaves p (x p) r

variable {α : Type} {x y : EStateM.Result LockHalt Process α} {r : Option (α × State)}

theorem Leaves.some (h : Leaves p x r) {a : α} (hr : r = some (a, s)) :
    x = .ok a { p with st := s } := by
  rw [hr] at h
  exact h

theorem Leaves.none (h : Leaves p x r) (hr : r = none) : ∃ q, x = .error .hang q := by
  rw [hr] at h
  exact h

theorem Leaves.congr (h : Leaves p x r) (hy : y = x) : Leaves p y r := by
  rw [hy]
  exact h

/-! ## What does not open a session -/

theorem free_keeps (h : Lockable p) (ap : Nat) : Keeps (memmgrFree e fuel ap) p
    ((Memmgr.memmgrFree e fuel p.st ap).map fun s => ((), s)) := by
  have hbegin : memmgrFree e fuel ap p = _ :=
    (bind_of_ok (lock_eq h)).trans (bind_of_ok (getSt_held p))
  by_cases hpool : p.st.pool = 0
  · rw [if_pos hpool, bind_of_ok (unlock_held p)] at hbegin
    rw [Memmgr.memmgrFree, if_pos hpool]
    exact hbegin
  by_cases hap : ap = 0
  · rw [if_neg hpool, if_pos hap, bind_of_ok (unlock_held p)] at hbegin
    rw [Memmgr.memmgrFree, if_neg hpool, if_pos hap]
    exact hbegin
  rw [if_neg hpool, if_neg hap] at hbegin
  cases hfree : Memmgr.memmgrFree e fuel p.st ap with
  | none =>
    rw [hfree] at hbegin
    exact ⟨held p, hbegin⟩
  | some s =>
    rw [hfree] at hbegin
    exact hbegin

/-- The same from a process that has got to the state `s`. -/
theorem free_keeps_at (h : Lockable p) (s : State) (ap : Nat) :
    Leaves p (memmgrFree e fuel ap { p with st := s })
      ((Memmgr.memmgrFree e fuel s ap).map fun s => ((), s)) := by
  have hkeeps : Keeps (memmgrFree e fuel ap) { p with st := s }
      ((Memmgr.memmgrFree e fuel s ap).map fun s => ((), s)) :=
    free_keeps (p := { p with st := s }) h ap
  cases hfree : Memmgr.memmgrFree e fuel s ap with
  | none => exact hkeeps.none (congrArg _ hfree)
  | some s' => exact hkeeps.some (congrArg _ hfree)

theorem getMemFromPool_keeps (h : Lockable p) (hrec : p.st.pool ≠ 0 → p.mutex.recursive = true)
    (nquantas : Nat) :
    Keeps (getMemFromPool e fuel nquantas) p (Memmgr.getMemFromPool e fuel p.st nquantas) := by
  have hbegin : getMemFromPool e fuel nquantas p = _ :=
    (bind_of_ok (lock_eq h)).trans (bind_of_ok (getSt_held p))
  by_cases hpool : p.st.pool = 0
  · rw [if_pos hpool, bind_of_ok (unlock_held p)] at hbegin
    rw [Memmgr.getMemFromPool, if_pos hpool]
    exact hbegin
  rw [if_neg hpool] at hbegin
  rw [Memmgr.getMemFromPool, if_neg hpool]
  dsimp only at hbegin ⊢
  generalize (if nquantas < minPoolAllocQuantas then minPoolAllocQuantas else nquantas) = k at *
  by_cases hfits : e.ulong (p.st.poolFreePos + e.ulong (k * e.hdr)) ≤ p.st.poolSize.toNat
  · rw [if_pos hfits, bind_of_ok (setSt_held p _)] at hbegin
    rw [if_pos hfits]
    -- the block is freed while the mutex is held
    have hfree := @free_keeps_at e fuel (held p) (Or.inr (hrec hpool))
    split
    · rename_i hpure
      obtain ⟨q, hq⟩ := (hfree _ _).none (congrArg (Option.map fun s => ((), s)) hpure)
      exact ⟨q, hbegin.trans (bind_of_error hq)⟩
    · rename_i s₂ hpure
      exact hbegin.trans (bind_of_ok
        ((hfree _ _).some (congrArg (Option.map fun s => ((), s)) hpure)))
  · rw [if_neg hfits, bind_of_ok (unlock_held p)] at hbegin
    rw [if_neg hfits]
    exact hbegin

/-- The loop begins with the mutex held, and its exits undo that. -/
theorem allocLoop_keeps (hrec : p.mutex.recursive = true) (nbytes nquantas : Nat) :
    ∀ (rounds : Nat) {prevp b : Nat} {s : State},
      Leaves p (allocLoop e fuel nbytes nquantas rounds prevp b (held { p with st := s }))
        (Memmgr.allocLoop e fuel nbytes nquantas rounds s prevp b)
  | 0, _, _, _ => ⟨_, rfl⟩
  | rounds + 1, prevp, b, s => by
    have hbegin : allocLoop e fuel nbytes nquantas (rounds + 1) prevp b
        (held { p with st := s }) = _ := bind_of_ok (getSt_held { p with st := s })
    rw [Memmgr.allocLoop]
    by_cases hsize : nquantas ≤ s.size e b
    · rw [if_pos (show nquantas ≤ ({ p with st := s } : Process).st.size e b from hsize)]
        at hbegin
      rw [if_pos hsize]
      exact hbegin
    rw [if_neg (show ¬nquantas ≤ ({ p with st := s } : Process).st.size e b from hsize)]
      at hbegin
    rw [if_neg hsize]
    by_cases hend : b = s.freep
    · rw [if_pos (show b = ({ p with st := s } : Process).st.freep from hend)] at hbegin
      rw [if_pos hend]
      have hget := @getMemFromPool_keeps e fuel (held { p with st := s })
        (Or.inr hrec) (fun _ => hrec) nquantas
      split
      · rename_i hpure
        obtain ⟨q, hq⟩ := hget.none hpure
        exact ⟨q, hbegin.trans (bind_of_error hq)⟩
      · rename_i q s₁ hpure
        have hnext := hbegin.trans (bind_of_ok (hget.some hpure))
        by_cases hq : q = 0
        · rw [if_pos hq] at hnext ⊢
          exact hnext
        · rw [if_neg hq] at hnext ⊢
          refine (allocLoop_keeps hrec nbytes nquantas rounds (b := s₁.next e q) (s := s₁)).congr ?_
          exact hnext
    · rw [if_neg (show ¬b = ({ p with st := s } : Process).st.freep from hend)] at hbegin
      rw [if_neg hend]
      exact (allocLoop_keeps hrec nbytes nquantas rounds (b := s.next e b) (s := s)).congr hbegin

theorem alloc_keeps (h : Lockable p) (hrec : p.st.pool ≠ 0 → p.mutex.recursive = true)
    (nbytes : Nat) :
    Keeps (memmgrAlloc e fuel nbytes) p (Memmgr.memmgrAlloc e fuel p.st nbytes) := by
  have hbegin : memmgrAlloc e fuel nbytes p = _ :=
    (bind_of_ok (lock_eq h)).trans (bind_of_ok (getSt_held p))
  rw [Memmgr.memmgrAlloc]
  by_cases hpool : p.st.pool = 0
  · rw [if_pos hpool, bind_of_ok (unlock_held p)] at hbegin
    rw [if_pos hpool]
    exact hbegin
  rw [if_neg hpool] at hbegin ⊢
  by_cases hsession : p.st.session = 0
  · rw [if_pos hsession, bind_of_ok (unlock_held p)] at hbegin
    rw [if_pos hsession]
    exact hbegin
  rw [if_neg hsession, bind_of_ok (setSt_held p _)] at hbegin
  rw [if_neg hsession]
  refine (allocLoop_keeps (hrec hpool) nbytes (quantas e nbytes) fuel).congr ?_
  exact hbegin.trans (bind_of_ok (getSt_held { p with st := startList e p.st }))

theorem lookup_keeps (h : Lockable p) (ap : Nat) : Keeps (lookupBufferPhysicalAddress ap) p
    (some (Memmgr.lookupBufferPhysicalAddress p.st ap, p.st)) := by
  have hbegin : lookupBufferPhysicalAddress ap p = _ :=
    (bind_of_ok (lock_eq h)).trans (bind_of_ok (getSt_held p))
  rw [Memmgr.lookupBufferPhysicalAddress]
  by_cases hpool : p.st.pool = 0
  · rw [if_pos hpool] at hbegin ⊢
    exact hbegin
  · rw [if_neg hpool] at hbegin ⊢
    exact hbegin

theorem printStats_keeps (h : Lockable p) : Keeps (memmgrPrintStats e fuel) p
    ((Memmgr.memmgrPrintStats e fuel p.st).map fun _ => ((), p.st)) := by
  have hbegin : memmgrPrintStats e fuel p = _ :=
    (bind_of_ok (lock_eq h)).trans (bind_of_ok (getSt_held p))
  by_cases hpool : p.st.pool = 0
  · rw [if_pos hpool] at hbegin
    rw [Memmgr.memmgrPrintStats, if_pos hpool]
    exact hbegin
  rw [if_neg hpool] at hbegin
  cases hstats : Memmgr.memmgrPrintStats e fuel p.st with
  | none =>
    rw [hstats] at hbegin
    exact ⟨held p, hbegin⟩
  | some r =>
    rw [hstats] at hbegin
    exact hbegin

theorem destroy_keeps (h : Lockable p) : Keeps (memmgrDestroy e) p
    (some ((), (Memmgr.memmgrDestroy e p.st).1)) :=
  (bind_of_ok (lock_eq h)).trans (bind_of_ok (getSt_held p))

/-- `memmgr_assert` aborts with the mutex as it was. -/
theorem assert_keeps (h : Lockable p) (ap : Nat) : memmgrAssert e ap p =
    if Memmgr.memmgrAssert e p.st ap then .ok () p else .error .aborted p := by
  have hbegin : memmgrAssert e ap p = _ :=
    (bind_of_ok (lock_eq h)).trans (bind_of_ok (getSt_held p))
  rw [Memmgr.memmgrAssert]
  by_cases hpool : p.st.pool = 0
  · rw [if_pos hpool] at hbegin ⊢
    exact hbegin
  rw [if_neg hpool] at hbegin ⊢
  dsimp only at hbegin ⊢
  by_cases hrange : UInt32.ofNat p.st.pool + p.st.poolSize < UInt32.ofNat ap ∨
      UInt32.ofNat ap < UInt32.ofNat p.st.pool
  · rw [if_pos hrange] at hbegin ⊢
    exact hbegin
  rw [if_neg hrange] at hbegin ⊢
  by_cases hfound : assertLoop e p.st ap p.st.largestAllocation.toNat 0 = true
  · rw [if_pos hfound] at hbegin ⊢
    exact hbegin
  · rw [if_neg hfound] at hbegin ⊢
    exact hbegin

/-! ## What opens a session -/

/-- The process once `createLock` has run. -/
def once (p : Process) : Process :=
  if p.createLockOnce then p
  else { p with createLockOnce := true, initialized := true,
                mutex := if p.initialized then p.mutex else ⟨0, true⟩ }

theorem pthreadOnce_eq (p : Process) : pthreadOnce p = .ok () (once p) := by
  rw [pthreadOnce, once]
  split <;> rfl

@[simp] theorem once_createLockOnce (p : Process) : (once p).createLockOnce = true := by
  rw [once]
  split
  · assumption
  · rfl

@[simp] theorem once_st (p : Process) : (once p).st = p.st := by
  rw [once]
  split <;> rfl

/-- The second time `pthread_once` does nothing. -/
theorem once_of_created (h : p.createLockOnce = true) : once p = p := if_pos h

/-- `createLock` has made the mutex recursive. -/
structure Created (p : Process) : Prop where
  once : p.createLockOnce = true
  recursive : p.mutex.recursive = true

theorem Created.lockable (h : Created p) : Lockable p := Or.inr h.recursive

theorem Created.held (h : Created p) : Created (held p) := ⟨h.once, h.recursive⟩

theorem Created.begin (h : Created p) {f : Unit → LockProg α} :
    (pthreadOnce >>= fun _ => lock >>= f) p = f () (Locked.held p) :=
  (bind_of_ok (pthreadOnce_eq p)).trans
    ((congrArg _ (once_of_created h.once)).trans (bind_of_ok (lock_eq h.lockable)))

theorem init_keeps (h : Created p) (buffer : Nat) (length baseAddress : UInt32) :
    Keeps (memmgrInit e buffer length baseAddress) p
      (some ((), Memmgr.memmgrInit e p.st buffer length baseAddress)) :=
  h.begin.trans (bind_of_ok (getSt_held p))

theorem initCheck_keeps (h : Created p) (buffer : Nat) (length baseAddress : UInt32) :
    Keeps (memmgrInitCheck e buffer length baseAddress) p
      (some ((), Memmgr.memmgrInitCheck e p.st buffer length baseAddress)) := by
  have hbegin : memmgrInitCheck e buffer length baseAddress p = _ :=
    h.begin.trans (bind_of_ok (getSt_held p))
  rw [Memmgr.memmgrInitCheck]
  by_cases hs : p.st.session = 0
  · rw [if_pos hs] at hbegin ⊢
    exact hbegin.trans (bind_of_ok ((init_keeps h.held buffer length baseAddress).some rfl))
  · rw [if_neg hs] at hbegin ⊢
    exact hbegin

theorem initCheckSharedMem_keeps (h : Created p) (os : OsReply) (length baseAddress : UInt32) :
    Keeps (memmgrInitCheckSharedMem e os length baseAddress) p
      (some ((Memmgr.memmgrInitCheckSharedMem e os p.st length baseAddress).1,
        (Memmgr.memmgrInitCheckSharedMem e os p.st length baseAddress).2.1)) := by
  have hbegin : memmgrInitCheckSharedMem e os length baseAddress p = _ :=
    h.begin.trans (bind_of_ok (getSt_held p))
  rw [Memmgr.memmgrInitCheckSharedMem]
  by_cases hs : p.st.session = 1
  · rw [if_pos hs] at hbegin ⊢
    exact hbegin
  rw [if_neg hs] at hbegin ⊢
  cases hmem : p.st.sharedMem with
  | some mem =>
    rw [hmem] at hbegin
    exact hbegin.trans (bind_of_ok ((initCheck_keeps h.held mem.ptr length baseAddress).some rfl))
  | none =>
    rw [hmem] at hbegin
    dsimp only at hbegin ⊢
    rcases harea : getSharedMemoryArea os baseAddressConst.toUInt64 sharedSize with ⟨_ | mem, log⟩
    · rw [harea] at hbegin
      exact hbegin
    · rw [harea] at hbegin
      have hheld : Created (held { p with st := { p.st with sharedMem := some mem } }) :=
        ⟨h.once, h.recursive⟩
      exact hbegin.trans
        (bind_of_ok ((initCheck_keeps hheld mem.ptr length baseAddress).some rfl))

/-! ## The entry points -/

/-- A call of one of the functions, or stores of a client. -/
inductive Entry
  | use (u : Use)
  | printStats
  | initSharedShort (os : OsReply)

namespace Entry

/-- The entry on the process. -/
def run (e : Env) (fuel : Nat) : Entry → LockProg Int
  | .use (.call (.init buffer length baseAddress)) => do
    memmgrInit e buffer length baseAddress
    return 0
  | .use (.call (.initCheck buffer length baseAddress)) => do
    memmgrInitCheck e buffer length baseAddress
    return 0
  | .use (.call (.initCheckSharedMem os length baseAddress)) =>
    memmgrInitCheckSharedMem e os length baseAddress
  | .use (.call .destroy) => do
    memmgrDestroy e
    return 0
  | .use (.call (.alloc nbytes)) => do return (← memmgrAlloc e fuel nbytes : Nat)
  | .use (.call (.free ap)) => do
    memmgrFree e fuel ap
    return 0
  | .use (.call (.stores mem)) => do
    setSt { ← getSt with mem := mem }
    return 0
  | .use (.lookup ap) => do return (← lookupBufferPhysicalAddress ap).toNat
  | .use (.assert ap) => do
    memmgrAssert e ap
    return 0
  | .printStats => do
    memmgrPrintStats e fuel
    return 0
  | .initSharedShort os => memmgrInitSharedShort e os

/-- What it returns and leaves without the mutex. -/
def bare (e : Env) (fuel : Nat) (s : State) : Entry → Option (Int × State)
  | .use u => u.run e fuel s
  | .printStats => (Memmgr.memmgrPrintStats e fuel s).map fun _ => (0, s)
  | .initSharedShort os =>
    let r := Memmgr.memmgrInitSharedShort e os s
    some (r.1, r.2.1)

/-- It is one of the functions that call `pthread_once`. -/
def opens : Entry → Bool
  | .use (.call c) => c.isInit
  | .initSharedShort _ => true
  | _ => false

/-- The process in which it takes the mutex. -/
def enter (u : Entry) (p : Process) : Process := if u.opens then once p else p

end Entry

/-- The invariant between two calls: nobody holds the mutex, and where there is a pool the mutex is
recursive, because `createLock` has run. -/
structure Sound (p : Process) : Prop where
  free : p.mutex.hold = 0
  created : p.createLockOnce = true → p.mutex.recursive = true
  fresh : p.createLockOnce = false → p.initialized = false
  pool : p.st.pool ≠ 0 → p.createLockOnce = true

theorem Sound.loaded (mem : Mem) : Sound (Process.loaded mem) :=
  ⟨rfl, fun h => absurd h (by simp [Process.loaded]), fun _ => rfl, fun h => absurd rfl h⟩

theorem Sound.lockable (S : Sound p) : Lockable p := Or.inl S.free

theorem Sound.recursive (S : Sound p) (h : p.st.pool ≠ 0) : p.mutex.recursive = true :=
  S.created (S.pool h)

/-- The functions that open a session find the mutex recursive. -/
theorem Sound.once (S : Sound p) : Created (once p) ∧ (Locked.once p).mutex.hold = 0 := by
  rw [Locked.once]
  cases h : p.createLockOnce with
  | true => exact ⟨⟨h, S.created h⟩, S.free⟩
  | false =>
    rw [if_neg (by simp), S.fresh h]
    exact ⟨⟨rfl, rfl⟩, rfl⟩

theorem Sound.enter (S : Sound p) (u : Entry) : Sound (u.enter p) := by
  rw [Entry.enter]
  split
  · exact ⟨S.once.2, fun _ => S.once.1.recursive, fun h => by simp at h, fun _ => by simp⟩
  · exact S

theorem pthreadOnce_again (f : Unit → LockProg α) (p : Process) :
    (pthreadOnce >>= f) p = (pthreadOnce >>= f) (once p) := by
  rw [bind_of_ok (pthreadOnce_eq p), bind_of_ok (pthreadOnce_eq (once p)),
    once_of_created (once_createLockOnce p)]

/-- **What an entry does to the process.**  It does what the function does and leaves the mutex as
`createLock` has made it; otherwise it aborts in the process it began in, or a loop has no fuel. -/
theorem Sound.run (S : Sound p) (u : Entry) (fuel : Nat) :
    match u.bare e fuel p.st with
    | some (v, s) => u.run e fuel p = .ok v { u.enter p with st := s }
    | none => u.run e fuel p = .error .aborted p ∨ ∃ q, u.run e fuel p = .error .hang q := by
  have hst := once_st p
  have hcreated := S.once.1
  match u with
  | .use (.call (.init buffer length baseAddress)) =>
    have h := (init_keeps (e := e) hcreated buffer length baseAddress).some rfl
    rw [hst] at h
    exact bind_of_ok ((pthreadOnce_again _ p).trans h)
  | .use (.call (.initCheck buffer length baseAddress)) =>
    have h := (initCheck_keeps (e := e) hcreated buffer length baseAddress).some rfl
    rw [hst] at h
    exact bind_of_ok ((pthreadOnce_again _ p).trans h)
  | .use (.call (.initCheckSharedMem os length baseAddress)) =>
    have h := (initCheckSharedMem_keeps (e := e) hcreated os length baseAddress).some rfl
    rw [hst] at h
    exact (pthreadOnce_again _ p).trans h
  | .initSharedShort os =>
    have h := (initCheckSharedMem_keeps (e := e) hcreated os sharedSize baseAddressConst).some rfl
    rw [hst] at h
    exact (pthreadOnce_again _ p).trans h
  | .use (.call .destroy) => exact bind_of_ok ((destroy_keeps S.lockable).some rfl)
  | .use (.call (.stores mem)) => rfl
  | .use (.lookup ap) => exact bind_of_ok ((lookup_keeps S.lockable ap).some rfl)
  | .use (.call (.alloc nbytes)) =>
    have h := @alloc_keeps e fuel p S.lockable S.recursive nbytes
    rw [Entry.bare, Use.run, Call.run]
    cases halloc : Memmgr.memmgrAlloc e fuel p.st nbytes with
    | some r => exact bind_of_ok (h.some halloc)
    | none =>
      obtain ⟨q, hq⟩ := h.none halloc
      exact Or.inr ⟨q, bind_of_error hq⟩
  | .use (.call (.free ap)) =>
    have h := @free_keeps e fuel p S.lockable ap
    rw [Entry.bare, Use.run, Call.run]
    cases hfree : Memmgr.memmgrFree e fuel p.st ap with
    | some s => exact bind_of_ok (h.some (congrArg _ hfree))
    | none =>
      obtain ⟨q, hq⟩ := h.none (congrArg _ hfree)
      exact Or.inr ⟨q, bind_of_error hq⟩
  | .use (.assert ap) =>
    have h := assert_keeps (e := e) S.lockable ap
    rw [Entry.bare, Use.run]
    by_cases hassert : Memmgr.memmgrAssert e p.st ap = true
    · rw [if_pos hassert] at h ⊢
      exact bind_of_ok h
    · rw [if_neg hassert] at h ⊢
      exact Or.inl (bind_of_error h)
  | .printStats =>
    have h := @printStats_keeps e fuel p S.lockable
    rw [Entry.bare]
    cases hstats : Memmgr.memmgrPrintStats e fuel p.st with
    | some r => exact bind_of_ok (h.some (congrArg _ hstats))
    | none =>
      obtain ⟨q, hq⟩ := h.none (congrArg _ hstats)
      exact Or.inr ⟨q, bind_of_error hq⟩

/-- Only the functions that open a session give the process a pool. -/
theorem Entry.pool_of_not_opens {u : Entry} (hu : u.opens = false) {fuel : Nat} {v : Int}
    {s s' : State} (h : u.bare e fuel s = some (v, s')) : s'.pool = s.pool ∨ s'.pool = 0 := by
  match u with
  | .use (.call .destroy) =>
    cases h
    rw [memmgrDestroy_eq]
    exact Or.inr rfl
  | .use (.call (.stores mem)) =>
    cases h
    exact Or.inl rfl
  | .use (.lookup ap) =>
    cases h
    exact Or.inl rfl
  | .use (.call (.alloc nbytes)) =>
    obtain ⟨r, hr, h⟩ := Option.map_eq_some_iff.1 h
    cases h
    exact Or.inl (SameSession.alloc hr).pool_eq
  | .use (.call (.free ap)) =>
    obtain ⟨r, hr, h⟩ := Option.map_eq_some_iff.1 h
    cases h
    exact Or.inl (SameSession.free hr).pool_eq
  | .use (.assert ap) =>
    rw [Entry.bare, Use.run] at h
    split at h
    · cases h
      exact Or.inl rfl
    · exact absurd h (by simp)
  | .printStats =>
    obtain ⟨r, -, h⟩ := Option.map_eq_some_iff.1 h
    cases h
    exact Or.inl rfl

/-- A call that returns has done what its function does. -/
theorem Sound.returned (S : Sound p) {u : Entry} {fuel : Nat} {v : Int} {q : Process}
    (h : u.run e fuel p = .ok v q) :
    ∃ s, u.bare e fuel p.st = some (v, s) ∧ q = { u.enter p with st := s } := by
  have hrun := S.run (e := e) u fuel
  cases hbare : u.bare e fuel p.st with
  | none =>
    rw [hbare] at hrun
    rcases hrun with hrun | ⟨q, hrun⟩
    · rw [hrun] at h
      exact absurd h (by simp)
    · rw [hrun] at h
      exact absurd h (by simp)
  | some r =>
    rw [hbare] at hrun
    obtain ⟨rfl, rfl⟩ := EStateM.Result.ok.inj (hrun.symm.trans h)
    exact ⟨r.2, rfl, rfl⟩

/-- A call that does not return has aborted in the process it began in, or a loop has no fuel. -/
theorem Sound.stopped (S : Sound p) {u : Entry} {fuel : Nat} {x : LockHalt} {q : Process}
    (h : u.run e fuel p = .error x q) : x = .aborted ∧ q = p ∨ x = .hang := by
  have hrun := S.run (e := e) u fuel
  cases hbare : u.bare e fuel p.st with
  | none =>
    rw [hbare] at hrun
    rcases hrun with hrun | ⟨q', hrun⟩
    · obtain ⟨rfl, rfl⟩ := EStateM.Result.error.inj (hrun.symm.trans h)
      exact Or.inl ⟨rfl, rfl⟩
    · exact Or.inr (EStateM.Result.error.inj (h.symm.trans hrun)).1
  | some r =>
    rw [hbare] at hrun
    rw [hrun] at h
    exact absurd h (by simp)

/-- **A call keeps the invariant.** -/
theorem Sound.step (S : Sound p) {u : Entry} {fuel : Nat} {v : Int} {q : Process}
    (h : u.run e fuel p = .ok v q) : Sound q := by
  obtain ⟨s, hbare, rfl⟩ := S.returned h
  have E := S.enter u
  refine ⟨E.free, E.created, E.fresh, fun hpool => ?_⟩
  cases hu : u.opens with
  | true =>
    show (u.enter p).createLockOnce = true
    rw [Entry.enter, if_pos hu]
    exact once_createLockOnce p
  | false =>
    refine E.pool ?_
    rw [Entry.enter, hu]
    rcases Entry.pool_of_not_opens hu hbare with hs | hs
    · exact hs ▸ hpool
    · exact absurd hs hpool

/-! ## Whole runs -/

/-- Runs of calls that return, from the process as it is loaded. -/
def Run (e : Env) (mem : Mem) : Process → Prop :=
  Relation.ReflTransGen (fun p q => ∃ (u : Entry) (fuel : Nat) (v : Int), u.run e fuel p = .ok v q)
    (Process.loaded mem)

theorem Run.sound {mem : Mem} (h : Run e mem p) : Sound p := by
  induction h with
  | refl => exact Sound.loaded mem
  | tail _ hstep ih =>
    obtain ⟨u, fuel, v, hstep⟩ := hstep
    exact ih.step hstep

/-- **Lock discipline.**  After any calls, whatever is called next: if it returns or aborts the
mutex is held as often as before; it never waits for itself, and never unlocks what it does not
hold.  Where there is a pool the mutex is recursive. -/
theorem lock_discipline {mem : Mem} (h : Run e mem p) :
    (p.st.pool ≠ 0 → p.mutex.recursive = true) ∧
    ∀ (u : Entry) (fuel : Nat),
      (∀ v q, u.run e fuel p = .ok v q → q.mutex.hold = p.mutex.hold) ∧
      (∀ q, u.run e fuel p = .error .aborted q → q.mutex.hold = p.mutex.hold) ∧
      (∀ q, u.run e fuel p ≠ .error .blocked q) ∧
      ∀ q, u.run e fuel p ≠ .error .notHeld q := by
  have S := h.sound
  refine ⟨S.recursive, fun u fuel => ⟨fun v q hq => ?_, fun q hq => ?_, fun q hq => ?_,
    fun q hq => ?_⟩⟩
  · rw [(S.step hq).free, S.free]
  · rcases S.stopped hq with ⟨-, rfl⟩ | hhang
    · rfl
    · exact absurd hhang (by decide)
  · rcases S.stopped hq with ⟨habort, -⟩ | hhang
    · exact absurd habort (by decide)
    · exact absurd hhang (by decide)
  · rcases S.stopped hq with ⟨habort, -⟩ | hhang
    · exact absurd habort (by decide)
    · exact absurd hhang (by decide)

/-- A session is opened over the shared region; no allocation from there waits for itself. -/
theorem lock_discipline_zynq : ∃ p : Process, Run Env.zynq (fun _ => 0) p ∧
    p.st.pool = 0x40000000 ∧ p.mutex.recursive = true ∧
    ∀ (fuel nbytes : Nat) (q : Process),
      (Entry.use (.call (.alloc nbytes))).run Env.zynq fuel p ≠ .error .blocked q := by
  have hopen := (Sound.loaded fun _ => 0).run (e := Env.zynq)
    (.initSharedShort (zynqReply true)) 0
  have hrun : Run Env.zynq (fun _ => 0) _ := Relation.ReflTransGen.single ⟨_, _, _, hopen⟩
  obtain ⟨hrec, hcalls⟩ := lock_discipline hrun
  exact ⟨_, hrun, rfl, hrec (show (0x40000000 : Nat) ≠ 0 by decide),
    fun fuel nbytes q => (hcalls (.use (.call (.alloc nbytes))) fuel).2.2.1 q⟩

end Locked
end Memmgr
end Zedboard
