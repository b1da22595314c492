import Zedboard.Lib.Bytes
import Zedboard.Memmgr.Defs

/-!
# Writing a file to physical memory

`write_file_to_memory.c`: each byte of a file is stored through a window of its own, which begins at
the page of its address.  The running address is an `unsigned long`, but the address of the page and
the place in it are `unsigned int`s, so that the upper half of a 64-bit address is lost: the byte at
`a` goes to `a % 2 ^ 32` (`fileLoop_eq`).  `file_lands` says for which requests that does not
matter.
-/

set_option autoImplicit false

namespace Zedboard

/-- How the calls of `write_file_to_memory` come out: the page size, whether the file can be opened,
the descriptor of `/dev/mem`, and where the window for each byte is mapped (`none` is
`MAP_FAILED`). -/
structure WriteReply where
  pageSize : UInt32
  opened : Bool
  fd : Int
  map : Nat → Option Nat

/-- The loop over the bytes, from the byte `i` on.  There is no result when a store misses its
window or the index overflows. -/
def fileLoop (abi : Abi) (r : WriteReply) (address : Nat) : List UInt8 → Nat → Mem → Option Mem
  | [], _, mem => some mem
  | currentByte :: rest, i, mem =>
    let range := 256 ^ abi.sizeofLong
    let currentAddress := (address + i) % range
    let pageBase := UInt32.ofNat (currentAddress / r.pageSize.toNat * r.pageSize.toNat)
    let pageOffset := UInt32.ofNat ((currentAddress + range - pageBase.toNat) % range)
    match r.map i with
    | none => some mem
    | some _ =>
      if (2 * r.pageSize).toNat ≤ pageOffset.toNat then none
      else if i + 1 = 2 ^ 31 then none
      else fileLoop abi r address rest (i + 1)
        (Function.update mem (pageBase.toNat + pageOffset.toNat) currentByte)

/-- `main`, once it has its options: the value that it returns, and the physical memory. -/
def writeFileToMemory (abi : Abi) (r : WriteReply) (address : Nat) (file : List UInt8) (mem : Mem) :
    Option (Int × Mem) :=
  if address = 0 then some (-1, mem)
  else if !r.opened then some (-1, mem)
  else if r.fd < 0 then some (-1, mem)
  else (fileLoop abi r address file 0 mem).map fun mem => (0, mem)

/-- The file and the device can be opened, every mapping succeeds, and the page size is a sensible
one. -/
structure WriteReply.Succeeds (r : WriteReply) : Prop where
  opened : r.opened = true
  fd : 0 ≤ r.fd
  map : ∀ i, r.map i ≠ none
  divides : r.pageSize.toNat ∣ 2 ^ 32
  small : r.pageSize.toNat < 2 ^ 31

/-! ## Where a byte goes -/

variable {abi : Abi} {r : WriteReply} {address : Nat}

theorem sizeofLong_dvd (abi : Abi) : 2 ^ 32 ∣ 256 ^ abi.sizeofLong := by
  cases abi <;> decide

/-- The place in the page is right, and so is the page modulo `2 ^ 32`. -/
theorem page_eq {a P R : Nat} (hP : P ∣ 2 ^ 32) (hsmall : P < 2 ^ 31) (hR : 2 ^ 32 ∣ R)
    (ha : a < R) :
    (UInt32.ofNat (a / P * P)).toNat +
        (UInt32.ofNat ((a + R - (UInt32.ofNat (a / P * P)).toNat) % R)).toNat = a % 2 ^ 32 ∧
      (UInt32.ofNat ((a + R - (UInt32.ofNat (a / P * P)).toNat) % R)).toNat < P := by
  have hpos : 0 < P := Nat.pos_of_dvd_of_pos hP (by decide)
  have hdiv := Nat.div_add_mod' a P
  have hmod := Nat.mod_lt a hpos
  have hbase : (UInt32.ofNat (a / P * P)).toNat = a / P * P % 2 ^ 32 := UInt32.toNat_ofNat'
  have hle := Nat.mod_le (a / P * P) (2 ^ 32)
  -- the lost part is a multiple of `2 ^ 32`
  have hlost := Nat.div_add_mod (a / P * P) (2 ^ 32)
  have hoffset : ((a + R - a / P * P % 2 ^ 32) % R) % 2 ^ 32 = a % P := by
    have hsum : a + R - a / P * P % 2 ^ 32 = a % P + 2 ^ 32 * (a / P * P / 2 ^ 32) + R := by omega
    rw [Nat.mod_mod_of_dvd _ hR, hsum]
    obtain ⟨q, rfl⟩ := hR
    rw [Nat.add_mul_mod_self_left, Nat.add_mul_mod_self_left, Nat.mod_eq_of_lt (by omega)]
  have hroom : a / P * P % 2 ^ 32 + a % P < 2 ^ 32 := by
    obtain ⟨k, hk⟩ := hP
    have hmul : a / P * P % 2 ^ 32 = a / P % k * P := by
      rw [hk, Nat.mul_comm P k, Nat.mul_mod_mul_right]
    have hlt : a / P % k < k := Nat.mod_lt _ (Nat.pos_of_ne_zero fun h => by simp [h] at hk)
    have hnext : (a / P % k + 1) * P ≤ k * P := Nat.mul_le_mul_right P hlt
    rw [hmul]
    rw [Nat.mul_comm P k] at hk
    rw [Nat.add_mul, Nat.one_mul] at hnext
    omega
  rw [hbase, UInt32.toNat_ofNat', hoffset]
  refine ⟨?_, hmod⟩
  have hval : a % 2 ^ 32 = (a / P * P % 2 ^ 32 + a % P) % 2 ^ 32 := by
    rw [Nat.mod_add_mod, hdiv]
  rw [hval, Nat.mod_eq_of_lt hroom]

/-- The bytes from the address `a` on, stored at what is left of their addresses. -/
def storeLow : List UInt8 → Nat → Mem → Mem
  | [], _, mem => mem
  | b :: rest, a, mem => storeLow rest (a + 1) (Function.update mem (a % 2 ^ 32) b)

/-- **What the loop does.** -/
theorem fileLoop_eq (hr : r.Succeeds) : ∀ (file : List UInt8) {i : Nat} (mem : Mem),
    address + i + file.length ≤ 256 ^ abi.sizeofLong → i + file.length < 2 ^ 31 →
    fileLoop abi r address file i mem = some (storeLow file (address + i) mem)
  | [], _, _, _, _ => rfl
  | b :: rest, i, mem, hwrap, hint => by
    rw [List.length_cons] at hwrap hint
    have ha : (address + i) % 256 ^ abi.sizeofLong = address + i := Nat.mod_eq_of_lt (by omega)
    obtain ⟨haddr, hoffset⟩ := page_eq (a := address + i) hr.divides hr.small (sizeofLong_dvd abi)
      (by omega)
    have htwo : (2 * r.pageSize).toNat = 2 * r.pageSize.toNat := by
      have hsmall := hr.small
      rw [UInt32.toNat_mul]
      exact Nat.mod_eq_of_lt (by show 2 * r.pageSize.toNat < 2 ^ 32; omega)
    obtain ⟨ptr, hptr⟩ := Option.ne_none_iff_exists'.1 (hr.map i)
    rw [fileLoop, hptr, ha, htwo, if_neg (by omega), if_neg (by omega), haddr,
      fileLoop_eq hr rest _ (by omega) (by omega)]
    rfl

/-! ## Where the file goes -/

/-- Below `2 ^ 32` nothing is lost. -/
theorem storeLow_eq_fill : ∀ (l : List UInt8) {a : Nat} (mem : Mem), a + l.length ≤ 2 ^ 32 →
    storeLow l a mem = mem.fill a l.length fun i => l.getD i 0
  | [], a, mem, _ => (mem.fill_zero a _).symm
  | b :: rest, a, mem, h => by
    rw [List.length_cons] at h
    rw [storeLow, Nat.mod_eq_of_lt (by omega), storeLow_eq_fill rest _ (by omega), List.length_cons]
    have hone : Function.update mem a b = mem.fill a 1 fun _ => b := by
      rw [Mem.fill_succ, Mem.fill_zero]
      rfl
    rw [hone, Mem.fill_append, Nat.add_comm 1]
    refine Mem.fill_congr _ fun i _ => ?_
    rcases i with - | i
    · rfl
    · simp

/-- From `2 ^ 32` on nothing is stored. -/
theorem storeLow_of_le : ∀ (l : List UInt8) (a : Nat) (mem : Mem) {x : Nat}, 2 ^ 32 ≤ x →
    storeLow l a mem x = mem x
  | [], _, _, _, _ => rfl
  | b :: rest, a, mem, x, hx => by
    have hne : x ≠ a % 2 ^ 32 := by omega
    rw [storeLow, storeLow_of_le rest _ _ hx, Function.update_of_ne hne]

/-- The file lands at the address, and no other byte changes. -/
def Lands (abi : Abi) (r : WriteReply) (address : Nat) (file : List UInt8) : Prop :=
  ∀ mem, writeFileToMemory abi r address file mem =
    some (0, mem.fill address file.length fun i => file.getD i 0)

theorem writeFileToMemory_eq {file : List UInt8} (hr : r.Succeeds) (ha : address ≠ 0)
    (hwrap : address + file.length ≤ 256 ^ abi.sizeofLong) (hlen : file.length < 2 ^ 31)
    (mem : Mem) :
    writeFileToMemory abi r address file mem = some (0, storeLow file address mem) := by
  have hfd := hr.fd
  rw [writeFileToMemory, if_neg ha, if_neg (by simp [hr.opened]), if_neg (by omega),
    fileLoop_eq hr file mem hwrap (by omega)]
  rfl

theorem not_lands {file : List UInt8} (hr : r.Succeeds) (ha : address ≠ 0)
    (hwrap : address + file.length ≤ 256 ^ abi.sizeofLong) (hlen : file.length < 2 ^ 31)
    (hfile : file ≠ []) (hhigh : 2 ^ 32 < address + file.length) : ¬Lands abi r address file := by
  intro h
  have hpos := List.length_pos_of_ne_nil hfile
  -- the last byte, in a memory that has another one there
  have hmem := h fun _ => file.getD (file.length - 1) 0 + 1
  rw [writeFileToMemory_eq hr ha hwrap hlen, Option.some.injEq, Prod.mk.injEq] at hmem
  have hlast := congrFun hmem.2 (address + (file.length - 1))
  rw [storeLow_of_le _ _ _ (by omega), Mem.fill_of_inside _ _ (by omega)] at hlast
  simp at hlast

/-- **Exactly when the file lands where it should**: all of it is below `2 ^ 32`, or there is
nothing to write. -/
theorem file_lands {file : List UInt8} (hr : r.Succeeds) (ha : address ≠ 0)
    (hwrap : address + file.length ≤ 256 ^ abi.sizeofLong) (hlen : file.length < 2 ^ 31) :
    Lands abi r address file ↔ file = [] ∨ address + file.length ≤ 2 ^ 32 := by
  constructor
  · intro h
    by_contra hnot
    rw [not_or] at hnot
    exact not_lands hr ha hwrap hlen hnot.1 (by omega) h
  · rintro hlow mem
    rw [writeFileToMemory_eq hr ha hwrap hlen]
    rcases hlow with rfl | hlow
    · rw [storeLow, List.length_nil, Mem.fill_zero]
    · rw [storeLow_eq_fill file mem hlow]

/-- A system on which everything succeeds. -/
def writeBench : WriteReply := ⟨4096, true, 3, fun _ => some 0x40000000⟩

theorem writeBench_succeeds : writeBench.Succeeds :=
  ⟨rfl, by decide, fun _ => nofun, by decide, by decide⟩

/-- Two bytes on both sides of a page boundary. -/
theorem file_lands_crossing : Lands .lp64 writeBench 0x40000fff [1, 2] :=
  (file_lands writeBench_succeeds (by decide) (by decide) (by decide)).2 (Or.inr (by decide))

/-- **A byte for the upper memory goes to the lower one.** -/
theorem file_lands_low : ¬∀ (address : Nat) (file : List UInt8), address ≠ 0 →
    address + file.length ≤ 256 ^ Abi.lp64.sizeofLong → file.length < 2 ^ 31 →
    Lands .lp64 writeBench address file := fun h =>
  not_lands writeBench_succeeds (by decide) (by decide) (by decide) (by decide) (by decide)
    (h 0x800000000 [1] (by decide) (by decide) (by decide))

end Zedboard
