import Mathlib.Tactic.Ring
import Zedboard.Lib.Ledger
import Zedboard.UserMmapDriver

/-!
# The window of an area

What `getSharedMemoryArea` makes of the answers of the system (`getSharedMemoryArea_cases`), and
what the window that it maps backs.

The window is two pages long whatever the caller asks for, and the area begins at its address in the
first of them.  So it covers a request exactly when that is what is left of the two pages
(`area_covers`).
-/

set_option autoImplicit false

namespace Zedboard

/-! ## The parts of the area -/

/-- The address of the page of a physical address. -/
def OsReply.pageBase (os : OsReply) (a : UInt64) : UInt64 :=
  a / os.pageSize.toUInt64 * os.pageSize.toUInt64

/-- The place of a physical address in its page. -/
def OsReply.pageOffset (os : OsReply) (a : UInt64) : UInt32 := (a - os.pageBase a).toUInt32

/-- The area at the physical address `a`, in a window at `ptr`. -/
def OsReply.area (os : OsReply) (a : UInt64) (ptr : Nat) : SharedMemory where
  fd := os.fd
  ptr := ptr + (os.pageOffset a).toNat
  originalPtr := ptr
  length := 2 * os.pageSize
  offset := os.pageOffset a
  pageSize := os.pageSize

/-- What is done to get it. -/
def OsReply.areaLog (os : OsReply) (a : UInt64) (ptr : Nat) : List OsEvent :=
  [.opened os.fd, .mapped ptr (2 * os.pageSize) (os.pageBase a).toNat, .malloced]

/-- The ways in which `getSharedMemoryArea` comes out. -/
inductive AreaReply (os : OsReply) (a : UInt64) : Option SharedMemory × List OsEvent → Prop
  /-- Nothing has been opened. -/
  | unopened (h : a = 0 ∨ os.fd < 0) : AreaReply os a (none, [])
  /-- The descriptor 0 is taken for an error. -/
  | zero (ha : a ≠ 0) (hfd : os.fd = 0) : AreaReply os a (none, [.opened 0])
  | unmapped (ha : a ≠ 0) (hfd : 1 ≤ os.fd) (hmap : os.map = none) :
      AreaReply os a (none, [.opened os.fd, .closed os.fd])
  /-- There is no memory for the area, and the window stays mapped. -/
  | lost {ptr : Nat} (ha : a ≠ 0) (hfd : 1 ≤ os.fd) (hmap : os.map = some ptr)
      (hblock : os.block = false) : AreaReply os a (none,
        [.opened os.fd, .mapped ptr (2 * os.pageSize) (os.pageBase a).toNat, .closed os.fd])
  | area {ptr : Nat} (ha : a ≠ 0) (hfd : 1 ≤ os.fd) (hmap : os.map = some ptr)
      (hblock : os.block = true) : AreaReply os a (some (os.area a ptr), os.areaLog a ptr)

/-- **What `getSharedMemoryArea` can do.** -/
theorem getSharedMemoryArea_cases (os : OsReply) (a : UInt64) (length : UInt32) :
    AreaReply os a (getSharedMemoryArea os a length) := by
  rw [getSharedMemoryArea]
  dsimp only
  split
  · rename_i ha
    exact .unopened (Or.inl ha)
  · rename_i ha
    split
    · rename_i hfd
      split
      · rename_i h0
        exact .zero ha h0
      · exact .unopened (Or.inr (by omega))
    · rename_i hfd
      cases hmap : os.map with
      | none => exact .unmapped ha (by omega) hmap
      | some ptr =>
        dsimp only
        split
        · rename_i hblock
          exact .area ha (by omega) hmap hblock
        · rename_i hblock
          exact .lost ha (by omega) hmap (by simpa using hblock)

/-- When there is an area. -/
theorem getSharedMemoryArea_some {os : OsReply} {a : UInt64} {length : UInt32} {mem : SharedMemory}
    {log : List OsEvent} (h : getSharedMemoryArea os a length = (some mem, log)) :
    ∃ ptr, os.map = some ptr ∧ mem = os.area a ptr ∧ log = os.areaLog a ptr := by
  have hcases := getSharedMemoryArea_cases os a length
  rw [h] at hcases
  cases hcases with
  | area _ _ hmap => exact ⟨_, hmap, rfl, rfl⟩

/-- Then there was memory for it. -/
theorem block_of_some {os : OsReply} {a : UInt64} {length : UInt32} {mem : SharedMemory}
    {log : List OsEvent} (h : getSharedMemoryArea os a length = (some mem, log)) :
    os.block = true := by
  have hcases := getSharedMemoryArea_cases os a length
  rw [h] at hcases
  cases hcases with
  | area _ _ _ hblock => exact hblock

theorem toNat_pageBase (os : OsReply) (a : UInt64) :
    (os.pageBase a).toNat = a.toNat / os.pageSize.toNat * os.pageSize.toNat := by
  have hle := Nat.div_mul_le_self a.toNat os.pageSize.toNat
  have hlt := a.toNat_lt
  rw [OsReply.pageBase, UInt64.toNat_mul, UInt64.toNat_div, UInt32.toNat_toUInt64]
  exact Nat.mod_eq_of_lt (by omega)

theorem toNat_pageOffset {os : OsReply} (a : UInt64) (h : 0 < os.pageSize.toNat) :
    (os.pageOffset a).toNat = a.toNat % os.pageSize.toNat := by
  have hle := Nat.div_mul_le_self a.toNat os.pageSize.toNat
  have hmod := Nat.mod_lt a.toNat h
  have hlt := os.pageSize.toNat_lt
  have hsub : (os.pageBase a).toNat ≤ a.toNat := by rwa [toNat_pageBase]
  rw [OsReply.pageOffset, UInt64.toNat_toUInt32, UInt64.toNat_sub_of_le _ _
    (UInt64.le_iff_toNat_le.2 hsub), toNat_pageBase, ← Nat.mod_eq_sub_div_mul]
  exact Nat.mod_eq_of_lt (by omega)

/-- The address is its page and its place in that. -/
theorem pageBase_add_pageOffset {os : OsReply} (a : UInt64) (h : 0 < os.pageSize.toNat) :
    (os.pageBase a).toNat + (os.pageOffset a).toNat = a.toNat := by
  rw [toNat_pageBase, toNat_pageOffset a h]
  exact Nat.div_add_mod' ..

/-! ## What is backed -/

/-- After these events the byte at the pointer `x` is the physical byte `b`. -/
def Backs (log : List OsEvent) (x b : Nat) : Prop :=
  ∃ ptr length phys, .mapped ptr length phys ∈ log ∧ ptr ≤ x ∧ x < ptr + length.toNat ∧
    b = phys + (x - ptr)

/-- The window of an area backs what lies in it, and nothing else. -/
theorem backs_areaLog {os : OsReply} {a : UInt64} {ptr x b : Nat} :
    Backs (os.areaLog a ptr) x b ↔ ptr ≤ x ∧ x < ptr + (2 * os.pageSize).toNat ∧
      b = (os.pageBase a).toNat + (x - ptr) := by
  constructor
  · rintro ⟨p, l, q, hmem, h⟩
    simp only [OsReply.areaLog, List.mem_cons, reduceCtorEq, OsEvent.mapped.injEq, List.not_mem_nil,
      or_false, false_or] at hmem
    obtain ⟨rfl, rfl, rfl⟩ := hmem
    exact h
  · intro h
    exact ⟨ptr, _, _, by simp [OsReply.areaLog], h⟩

/-- The area covers a request for `length` bytes: each of them is the one that was asked for, and
lies in the window. -/
def Covers (mem : SharedMemory) (log : List OsEvent) (a : UInt64) (length : UInt32) : Prop :=
  ∀ i, i < length.toNat → Backs log (mem.ptr + i) (a.toNat + i) ∧ mem.originalPtr ≤ mem.ptr + i ∧
    mem.ptr + i < mem.originalPtr + mem.length.toNat

/-- **An area covers a request exactly when that fits into what is left of the two pages.**  The
offset of `mmap` has 64 bits here; where it has 32, so have the physical addresses. -/
theorem area_covers {os : OsReply} {a : UInt64} {length : UInt32} {mem : SharedMemory}
    {log : List OsEvent} (hpage : 0 < os.pageSize.toNat)
    (h : getSharedMemoryArea os a length = (some mem, log)) :
    Covers mem log a length ↔
      length = 0 ∨ a.toNat % os.pageSize.toNat + length.toNat ≤ (2 * os.pageSize).toNat := by
  obtain ⟨ptr, -, rfl, rfl⟩ := getSharedMemoryArea_some h
  have hoff := toNat_pageOffset a hpage
  have hsum := pageBase_add_pageOffset a hpage
  rw [← hoff]
  constructor
  · intro hcov
    by_cases hlen : length.toNat = 0
    · exact Or.inl (UInt32.toNat_inj.1 hlen)
    · obtain ⟨-, -, hlast⟩ := hcov (length.toNat - 1) (by omega)
      dsimp only [OsReply.area] at hlast
      exact Or.inr (by omega)
  · rintro (rfl | hle) i hi
    · exact absurd hi (Nat.not_lt_zero i)
    · dsimp only [OsReply.area]
      exact ⟨backs_areaLog.2 ⟨by omega, by omega, by omega⟩, by omega, by omega⟩

/-- A request for a hundred bytes that crosses a page. -/
theorem area_covers_crossing : ∃ mem log,
    getSharedMemoryArea ⟨4096, 3, some 0x40000000, true⟩ 0x1f410ff0 100 = (some mem, log) ∧
      Covers mem log 0x1f410ff0 100 := by
  have hpage : 0 < (OsReply.mk 4096 3 (some 0x40000000) true).pageSize.toNat := by decide
  exact ⟨_, _, rfl, (area_covers hpage rfl).2 (Or.inr (by decide))⟩

/-- **The shared region is not covered**: of its 8 megabytes two pages are mapped. -/
theorem shared_region_uncovered : ∃ mem log,
    getSharedMemoryArea ⟨4096, 3, some 0x40000000, true⟩ baseAddressConst.toUInt64 sharedSize =
      (some mem, log) ∧ ¬Covers mem log baseAddressConst.toUInt64 sharedSize := by
  refine ⟨_, _, rfl, fun h => ?_⟩
  obtain ⟨-, -, hlast⟩ := h 8192 (by decide)
  exact absurd hlast (by decide)

end Zedboard
