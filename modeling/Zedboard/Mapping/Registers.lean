import Zedboard.Mapping.Accessors
import Zedboard.Lib.Outcome

/-!
# Registers

The accessors on a device whose words are registers: a load may change the device, and what it
returns need not be what has been stored.  `wordAccesses` is what is left of an accessor when its
windows have been resolved, a list of accesses to physical words; a call that the system grants is
exactly one (`getReg_granted`, `setReg_granted`).

The answers of the system may be different for every call, so the state counts the calls.
-/

set_option autoImplicit false

namespace Zedboard

/-- An access to a physical word. -/
inductive WordAccess
  | load (a : Nat)
  | store (a : Nat) (v : UInt32)
  deriving DecidableEq, Repr

/-- The physical word at a pointer, through one of the windows. -/
def wordOf (views : List View) (p : Int) : Option Nat := World.word ⟨fun _ => 0, views, []⟩ p

/-- The accesses that acts make, with these windows.  There is no result when one faults. -/
def wordAccesses : List View → List Act → Option (List WordAccess)
  | _, [] => some []
  | views, .os (.mapped ptr length phys) :: acts => wordAccesses (⟨ptr, length, phys⟩ :: views) acts
  | views, .os (.unmapped ptr length) :: acts =>
    wordAccesses (views.eraseP fun v => v.ptr = ptr && v.length = length) acts
  | views, .os _ :: acts => wordAccesses views acts
  | views, .load p :: acts =>
    (wordOf views p).bind fun a => (wordAccesses views acts).map (.load a :: ·)
  | views, .store p v :: acts =>
    (wordOf views p).bind fun a => (wordAccesses views acts).map (.store a v :: ·)

/-- A device: what a load from one of its words returns and does, and what a store does. -/
structure RegisterFile (σ : Type) where
  load : Nat → σ → UInt32 × σ
  store : Nat → UInt32 → σ → σ

/-- The ways in which a program on devices does not return: it uses a null pointer, it waits for
ever, or an `int` overflows. -/
inductive Fault
  | segv
  | hang
  | overflow
  deriving DecidableEq, Repr

/-- A device, and how many calls of accessors there have been. -/
structure RegState (σ : Type) where
  device : σ
  calls : Nat

/-- A program on a device. -/
abbrev RegProg (σ : Type) := EStateM Fault (RegState σ)

variable {σ : Type}

/-- One access; a load replaces the value. -/
def RegisterFile.access (D : RegisterFile σ) (x : UInt32 × σ) : WordAccess → UInt32 × σ
  | .load a => D.load a x.2
  | .store a v => (x.1, D.store a v x.2)

/-- A call of an accessor on the device, with a variable for what it reads. -/
def RegisterFile.call (D : RegisterFile σ) (t : Trace) (value : UInt32) :
    RegProg σ UInt32 := fun s =>
  match t.2, wordAccesses [] t.1 with
  | some _, some xs =>
    let r := xs.foldl D.access (value, s.device)
    .ok r.1 ⟨r.2, s.calls + 1⟩
  | _, _ => .error .segv s

/-- `getValueAtAddress(a, &value)`: the new value of the variable. -/
def getReg (D : RegisterFile σ) (os : Nat → OsReply) (a : UInt64) (value : UInt32) :
    RegProg σ UInt32 := fun s => D.call (getValueAtAddress (os s.calls) a) value s

/-- `writeValueToAddress(v, a)`. -/
def setReg (D : RegisterFile σ) (os : Nat → OsReply) (v : UInt32) (a : UInt64) : RegProg σ Unit :=
  fun s => (discard (D.call (writeValueToAddress (os s.calls) v a) 0)) s

/-- An access through an area is an access to its word. -/
theorem wordAccesses_accessThrough {os : OsReply} {a : UInt64} (h : os.Grants a) (ptr : Nat) :
    wordAccesses [] (accessThrough (os.area a ptr) (os.areaLog a ptr)
      (.load (os.area a ptr).ptr)).1 =
        some [.load a.toNat] ∧
      ∀ v, wordAccesses [] (accessThrough (os.area a ptr) (os.areaLog a ptr)
        (.store (os.area a ptr).ptr v)).1 = some [.store a.toNat v] := by
  have hword : wordOf [⟨ptr, 2 * os.pageSize, (os.pageBase a).toNat⟩] (os.area a ptr).ptr =
      some a.toNat := word_area h ptr _ _
  constructor
  · simp [accessThrough, OsReply.areaLog, cleanupSharedMemoryPointer, wordAccesses, hword]
  · intro v
    simp [accessThrough, OsReply.areaLog, cleanupSharedMemoryPointer, wordAccesses, hword]

variable {D : RegisterFile σ} {os : Nat → OsReply} {a : UInt64} {s : RegState σ}

/-- **A read that is granted is one load.** -/
theorem getReg_granted (h : (os s.calls).Grants a) (value : UInt32) :
    getReg D os a value s =
      .ok (D.load a.toNat s.device).1 ⟨(D.load a.toNat s.device).2, s.calls + 1⟩ := by
  obtain ⟨ptr, harea⟩ := h.area 0
  rw [getReg, getValueAtAddress, harea, RegisterFile.call]
  dsimp only
  rw [(wordAccesses_accessThrough h ptr).1]
  rfl

/-- **A write that is granted is one store.** -/
theorem setReg_granted (h : (os s.calls).Grants a) (v : UInt32) :
    setReg D os v a s = .ok () ⟨D.store a.toNat v s.device, s.calls + 1⟩ := by
  obtain ⟨ptr, harea⟩ := h.area 4
  have hcall : D.call (writeValueToAddress (os s.calls) v a) 0 s =
      .ok 0 ⟨D.store a.toNat v s.device, s.calls + 1⟩ := by
    rw [writeValueToAddress, harea, RegisterFile.call]
    dsimp only
    rw [(wordAccesses_accessThrough h ptr).2 v]
    rfl
  show EStateM.map _ _ s = _
  rw [EStateM.map, hcall]

end Zedboard
