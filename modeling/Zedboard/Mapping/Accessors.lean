import Zedboard.Lib.Bytes
import Zedboard.Mapping.Window

/-!
# The accessors

What the four accessors do to the machine around them: the physical memory, and the windows that are
mapped.  An access through a pointer reaches the physical word behind it when that lies in such a
window, and faults otherwise.

* `accessors_plain`: while the system grants every request, `getValueAtAddress` and
  `writeValueToAddress` are a plain memory of words, and `accessors_plain_iff`: when the system does
  all it is asked, this fails for the descriptor 0 and for no other;
* `accessors_disciplined`: whatever the system answers, exactly which calls access their one word in
  a window of their own or report failure, and give back all they have acquired.
-/

set_option autoImplicit false

namespace Zedboard

/-! ## The machine around the accessors -/

/-- A window that is mapped: its pointer, its length and where it begins in its file. -/
structure View where
  ptr : Nat
  length : UInt32
  phys : Nat

/-- The physical memory, the windows that are mapped, and the words that have been read. -/
structure World where
  mem : Mem
  views : List View
  words : List Nat

namespace World

/-- The physical address of the word at a pointer, if the word lies in a window. -/
def word (w : World) (p : Int) : Option Nat :=
  (w.views.find? fun v => (v.ptr : Int) ≤ p && p + 4 ≤ v.ptr + v.length.toNat).map fun v =>
    v.phys + (p - v.ptr).toNat

/-- One act.  There is no result when it faults. -/
def act (w : World) : Act → Option World
  | .os (.mapped ptr length phys) => some { w with views := ⟨ptr, length, phys⟩ :: w.views }
  | .os (.unmapped ptr length) =>
    some { w with views := w.views.eraseP fun v => v.ptr = ptr && v.length = length }
  | .os _ => some w
  | .load p => (w.word p).map fun a => { w with words := w.words ++ [w.mem.readLE 4 a] }
  | .store p v => (w.word p).map fun a => { w with mem := w.mem.writeLE 4 a v.toNat }

/-- Acts, one after the other. -/
def exec (w : World) (acts : List Act) : Option World := acts.foldlM act w

theorem exec_append (w : World) (acts acts' : List Act) :
    w.exec (acts ++ acts') = (w.exec acts).bind fun w' => w'.exec acts' := List.foldlM_append ..

/-- The word at a pointer into the window that has been mapped last. -/
theorem word_view {w : World} {v : View} {p : Int} :
    World.word { w with views := v :: w.views } p =
      if (v.ptr : Int) ≤ p ∧ p + 4 ≤ v.ptr + v.length.toNat then some (v.phys + (p - v.ptr).toNat)
      else w.word p := by
  rw [word, List.find?_cons]
  split
  · rename_i h
    rw [if_pos (by simpa using h)]
    rfl
  · rename_i h
    rw [if_neg (by simpa using h)]
    rfl

end World

/-! ## Calls -/

/-- A call of an accessor. -/
inductive Request
  | read (addr : UInt64)
  | write (value : UInt32) (addr : UInt64)
  | readUio (offset : Int) (length : UInt32)
  | writeUio (value : UInt32) (offset : Int) (length : UInt32)

/-- What the call does. -/
def Request.run (mapFailed : Nat) (os : OsReply) : Request → Trace
  | .read addr => getValueAtAddress os addr
  | .write value addr => writeValueToAddress os value addr
  | .readUio offset length => getValueAtAddressUio mapFailed os offset length
  | .writeUio value offset length => writeValueToAddressUio mapFailed os value offset length

/-- What `getUioMemoryArea` maps. -/
def OsReply.uioArea (os : OsReply) (ptr : Nat) (length : UInt32) : SharedMemory where
  fd := os.fd
  ptr := ptr
  originalPtr := ptr
  length := length
  offset := 0
  pageSize := os.pageSize

/-- The ways in which `getUioMemoryArea` comes out. -/
inductive UioReply (mapFailed : Nat) (os : OsReply) (length : UInt32) :
    Option SharedMemory × List OsEvent → Prop
  | unopened (hfd : os.fd < 0) : UioReply mapFailed os length (none, [])
  /-- The descriptor 0 is taken for an error. -/
  | zero (hfd : os.fd = 0) : UioReply mapFailed os length (none, [.opened 0])
  /-- `MAP_FAILED` is taken for a window. -/
  | bogus (hfd : 1 ≤ os.fd) (hmap : os.map = none) (hblock : os.block = true) :
      UioReply mapFailed os length (some (os.uioArea mapFailed length), [.opened os.fd, .malloced])
  | unmapped (hfd : 1 ≤ os.fd) (hmap : os.map = none) (hblock : os.block = false) :
      UioReply mapFailed os length (none, [.opened os.fd, .closed os.fd])
  /-- A window at the null pointer is taken for an error, or there is no memory for the area; and
  the window stays mapped. -/
  | lost {ptr : Nat} (hfd : 1 ≤ os.fd) (hmap : os.map = some ptr)
      (hnot : ptr = 0 ∨ os.block = false) : UioReply mapFailed os length
        (none, [.opened os.fd, .mapped ptr length 0, .closed os.fd])
  | area {ptr : Nat} (hfd : 1 ≤ os.fd) (hmap : os.map = some ptr) (hptr : ptr ≠ 0)
      (hblock : os.block = true) : UioReply mapFailed os length
        (some (os.uioArea ptr length), [.opened os.fd, .mapped ptr length 0, .malloced])

/-- **What `getUioMemoryArea` can do.** -/
theorem getUioMemoryArea_cases {mapFailed : Nat} (hfail : mapFailed ≠ 0) (os : OsReply)
    (length : UInt32) : UioReply mapFailed os length (getUioMemoryArea mapFailed os length) := by
  have hzero : (0 : UInt32) &&& ~~~(os.pageSize - 1) = 0 := UInt32.zero_and
  have hsub : (0 : UInt32) - 0 = 0 := rfl
  rw [getUioMemoryArea]
  dsimp only
  rw [hzero, hsub]
  by_cases hfd : os.fd < 1
  · rw [if_pos hfd]
    split
    · rename_i h0
      exact .zero h0
    · exact .unopened (by omega)
  rw [if_neg hfd]
  cases hmap : os.map with
  | none =>
    rw [Option.getD_none, if_neg hfail]
    cases hblock : os.block with
    | true => exact .bogus (by omega) hmap hblock
    | false => exact .unmapped (by omega) hmap hblock
  | some ptr =>
    rw [Option.getD_some]
    by_cases hptr : ptr = 0
    · rw [if_pos hptr]
      exact .lost (by omega) hmap (Or.inl hptr)
    · rw [if_neg hptr]
      cases hblock : os.block with
      | true => exact .area (by omega) hmap hptr hblock
      | false => exact .lost (by omega) hmap (Or.inr hblock)

/-! ## Plain memory -/

/-- What the call does to a memory of words, and to the words that have been read. -/
def Request.plain : Mem × List Nat → Request → Mem × List Nat
  | (mem, words), .read addr => (mem, words ++ [mem.readLE 4 addr.toNat])
  | (mem, words), .write value addr => (mem.writeLE 4 addr.toNat value.toNat, words)
  | x, _ => x

/-- The system grants an area at an address, and the page size is a sensible one. -/
structure OsReply.Grants (os : OsReply) (addr : UInt64) : Prop where
  addr_ne : addr ≠ 0
  fd : 1 ≤ os.fd
  map : os.map ≠ none
  block : os.block = true
  low : 4 ≤ os.pageSize.toNat
  high : os.pageSize.toNat ≤ 2 ^ 30

/-- The call is for an address, and the system grants it. -/
def Request.Granted (os : OsReply) : Request → Prop
  | .read addr => os.Grants addr
  | .write _ addr => os.Grants addr
  | _ => False

/-- Then there is an area. -/
theorem OsReply.Grants.area {os : OsReply} {a : UInt64} (h : os.Grants a) (length : UInt32) :
    ∃ ptr, getSharedMemoryArea os a length = (some (os.area a ptr), os.areaLog a ptr) := by
  have hcases := getSharedMemoryArea_cases os a length
  obtain ⟨h1, h2, h3, h4, -, -⟩ := h
  generalize getSharedMemoryArea os a length = r at hcases
  cases hcases with
  | unopened h => exact absurd h (by rintro (h | h); exacts [h1 h, by omega])
  | zero _ hfd => omega
  | unmapped _ _ hmap => exact absurd hmap h3
  | lost _ _ _ hblock => rw [h4] at hblock; exact absurd hblock (by decide)
  | area => exact ⟨_, rfl⟩

/-- The word at the address lies in the window. -/
theorem word_inside {os : OsReply} (a : UInt64) (h : 4 ≤ os.pageSize.toNat)
    (h' : os.pageSize.toNat ≤ 2 ^ 30) :
    (os.pageOffset a).toNat + 4 ≤ (2 * os.pageSize).toNat := by
  have hmod := Nat.mod_lt a.toNat (show 0 < os.pageSize.toNat by omega)
  have htwo : (2 * os.pageSize).toNat = 2 * os.pageSize.toNat := by
    rw [UInt32.toNat_mul]
    exact Nat.mod_eq_of_lt (by show 2 * os.pageSize.toNat < 2 ^ 32; omega)
  rw [toNat_pageOffset a (by omega), htwo]
  omega

/-- One access through an area, in a world with no window. -/
theorem exec_accessThrough {os : OsReply} {a : UInt64} {ptr : Nat} {mem : Mem} {words : List Nat}
    {access : Act} {mem' : Mem} {words' : List Nat}
    (h : World.act ⟨mem, [⟨ptr, 2 * os.pageSize, (os.pageBase a).toNat⟩], words⟩ access =
      some ⟨mem', [⟨ptr, 2 * os.pageSize, (os.pageBase a).toNat⟩], words'⟩) :
    World.exec ⟨mem, [], words⟩ (accessThrough (os.area a ptr) (os.areaLog a ptr) access).1 =
      some ⟨mem', [], words'⟩ := by
  have hfront : World.exec ⟨mem, [], words⟩ ((os.areaLog a ptr).map .os) =
      some ⟨mem, [⟨ptr, 2 * os.pageSize, (os.pageBase a).toNat⟩], words⟩ := rfl
  have hback : World.exec ⟨mem', [⟨ptr, 2 * os.pageSize, (os.pageBase a).toNat⟩], words'⟩
      ((cleanupSharedMemoryPointer (os.area a ptr)).map .os) = some ⟨mem', [], words'⟩ := by
    simp [World.exec, cleanupSharedMemoryPointer, World.act, OsReply.area]
  rw [accessThrough, World.exec_append, hfront, Option.bind_some, World.exec, List.foldlM_cons, h]
  exact hback

/-- In the window of an area the word at its pointer is the word at its address. -/
theorem word_area {os : OsReply} {a : UInt64} (h : os.Grants a) (ptr : Nat) (mem : Mem)
    (words : List Nat) :
    World.word ⟨mem, [⟨ptr, 2 * os.pageSize, (os.pageBase a).toNat⟩], words⟩ (os.area a ptr).ptr =
      some a.toNat := by
  have hroom := word_inside a h.low h.high
  have hsum :=
    pageBase_add_pageOffset a (show 0 < os.pageSize.toNat from lt_of_lt_of_le (by decide) h.low)
  have hword := World.word_view (w := ⟨mem, [], words⟩)
    (v := ⟨ptr, 2 * os.pageSize, (os.pageBase a).toNat⟩) (p := (os.area a ptr).ptr)
  rw [hword, if_pos (by dsimp only [OsReply.area]; omega)]
  congr 1
  dsimp only [OsReply.area]
  omega

/-- **One call is one access to plain memory.** -/
theorem run_plain (mapFailed : Nat) {os : OsReply} {r : Request} (h : r.Granted os) (mem : Mem)
    (words : List Nat) :
    World.exec ⟨mem, [], words⟩ (r.run mapFailed os).1 =
        some ⟨(Request.plain (mem, words) r).1, [], (Request.plain (mem, words) r).2⟩ ∧
      (r.run mapFailed os).2 = some 0 := by
  cases r with
  | read a =>
    obtain ⟨ptr, harea⟩ := OsReply.Grants.area h 0
    rw [Request.run, getValueAtAddress, harea]
    refine ⟨exec_accessThrough ?_, rfl⟩
    rw [World.act, word_area h]
    rfl
  | write v a =>
    obtain ⟨ptr, harea⟩ := OsReply.Grants.area h 4
    rw [Request.run, writeValueToAddress, harea]
    refine ⟨exec_accessThrough ?_, rfl⟩
    rw [World.act, word_area h]
    rfl
  | readUio | writeUio => exact h.elim

/-- **The accessors are a plain memory of words**, over any sequence of calls that the system
grants: every access lies in a window of its own, every read returns what the memory has there, and
no window is left.  The offset of `mmap` has 64 bits here, as many as the addresses. -/
theorem accessors_plain (mapFailed : Nat) {calls : List (OsReply × Request)}
    (h : ∀ x ∈ calls, x.2.Granted x.1) (mem : Mem) (words : List Nat) :
    World.exec ⟨mem, [], words⟩ (calls.flatMap fun x => (x.2.run mapFailed x.1).1) =
        some ⟨((calls.map Prod.snd).foldl Request.plain (mem, words)).1, [],
          ((calls.map Prod.snd).foldl Request.plain (mem, words)).2⟩ ∧
      ∀ x ∈ calls, (x.2.run mapFailed x.1).2 = some 0 := by
  induction calls generalizing mem words with
  | nil => exact ⟨rfl, by simp⟩
  | cons x calls ih =>
    obtain ⟨hx, hcalls⟩ := List.forall_mem_cons.1 h
    obtain ⟨hexec, hret⟩ := run_plain mapFailed hx mem words
    obtain ⟨hrest, hrets⟩ := ih hcalls (Request.plain (mem, words) x.2).1
      (Request.plain (mem, words) x.2).2
    refine ⟨?_, List.forall_mem_cons.2 ⟨hret, hrets⟩⟩
    rw [List.flatMap_cons, World.exec_append, hexec, Option.bind_some, hrest]
    rfl

/-- The calls do what a plain memory of words does, and report success. -/
def Plainly (mapFailed : Nat) (calls : List (OsReply × Request)) (mem : Mem) (words : List Nat) :
    Prop :=
  World.exec ⟨mem, [], words⟩ (calls.flatMap fun x => (x.2.run mapFailed x.1).1) =
      some ⟨((calls.map Prod.snd).foldl Request.plain (mem, words)).1, [],
        ((calls.map Prod.snd).foldl Request.plain (mem, words)).2⟩ ∧
    ∀ x ∈ calls, (x.2.run mapFailed x.1).2 = some 0

/-- The calls of the system succeed, and the page size is a sensible one.  A descriptor is not
negative then; it may be 0. -/
structure OsReply.Succeeds (os : OsReply) (addr : UInt64) : Prop where
  addr_ne : addr ≠ 0
  fd : 0 ≤ os.fd
  map : os.map ≠ none
  block : os.block = true
  low : 4 ≤ os.pageSize.toNat
  high : os.pageSize.toNat ≤ 2 ^ 30

/-- The call is for an address, and the calls of the system that it makes succeed. -/
def Request.Succeeds (os : OsReply) : Request → Prop
  | .read addr => os.Succeeds addr
  | .write _ addr => os.Succeeds addr
  | _ => False

theorem OsReply.Succeeds.grants {os : OsReply} {a : UInt64} (h : os.Succeeds a) (hfd : 1 ≤ os.fd) :
    os.Grants a :=
  ⟨h.addr_ne, hfd, h.map, h.block, h.low, h.high⟩

theorem Request.Succeeds.granted {os : OsReply} {r : Request} (h : r.Succeeds os)
    (hfd : 1 ≤ os.fd) : r.Granted os := by
  cases r with
  | read | write => exact OsReply.Succeeds.grants h hfd
  | readUio | writeUio => exact h

/-- A call that reports success has a descriptor that is not 0. -/
theorem Request.Succeeds.fd_pos {os : OsReply} {r : Request} (mapFailed : Nat) (h : r.Succeeds os)
    (hret : (r.run mapFailed os).2 = some 0) : 1 ≤ os.fd := by
  by_contra hfd
  have harea : ∀ a length, (getSharedMemoryArea os a length).1 = none := by
    intro a length
    have hcases := getSharedMemoryArea_cases os a length
    generalize getSharedMemoryArea os a length = t at hcases
    cases hcases with
    | area _ h1 => exact absurd h1 hfd
    | unopened | zero | unmapped | lost => rfl
  cases r with
  | read a =>
    rw [Request.run, getValueAtAddress] at hret
    split at hret
    · exact absurd (Option.some.inj hret) (by decide)
    · rename_i heq
      exact absurd (harea a 0) (by rw [heq]; exact Option.some_ne_none _)
  | write v a =>
    rw [Request.run, writeValueToAddress] at hret
    split at hret
    · exact absurd hret.symm (Option.some_ne_none _)
    · rename_i heq
      exact absurd (harea a 4) (by rw [heq]; exact Option.some_ne_none _)
  | readUio | writeUio => exact h.elim

/-- **The accessors are a plain memory of words exactly when no descriptor is 0**, over any sequence
of calls for which the system does all it is asked.  The offset of `mmap` has 64 bits here, as many
as the addresses. -/
theorem accessors_plain_iff (mapFailed : Nat) {calls : List (OsReply × Request)}
    (h : ∀ x ∈ calls, x.2.Succeeds x.1) (mem : Mem) (words : List Nat) :
    Plainly mapFailed calls mem words ↔ ∀ x ∈ calls, 1 ≤ x.1.fd := by
  constructor
  · exact fun ⟨_, hret⟩ x hx => (h x hx).fd_pos mapFailed (hret x hx)
  · exact fun hfd => accessors_plain mapFailed (fun x hx => (h x hx).granted (hfd x hx)) mem words

theorem succeeds_4096 {ptr : Nat} {fd : Int} {a : UInt64} (hfd : 0 ≤ fd) (ha : a ≠ 0) :
    (OsReply.mk 4096 fd (some ptr) true).Succeeds a :=
  ⟨ha, hfd, Option.some_ne_none _, rfl, show 4 ≤ (4096 : UInt32).toNat by decide,
    show (4096 : UInt32).toNat ≤ 2 ^ 30 by decide⟩

/-- A word is written across a page above 4 GiB, and the word a byte further is read. -/
def crossing : List (OsReply × Request) :=
  [(⟨4096, 3, some 0x40000000, true⟩, .write 0xdeadbeef 0x100000ffe),
    (⟨4096, 5, some 0x70000000, true⟩, .read 0x100000fff)]

theorem accessors_plain_iff_crossing :
    Plainly 0xffffffff crossing (fun _ => 0) [] ∧
    ((crossing.map Prod.snd).foldl Request.plain (fun _ => 0, [])).2 = [0xdeadbe] := by
  have hs : ∀ x ∈ crossing, x.2.Succeeds x.1 := by
    rintro x (_ | ⟨_, _ | ⟨_, ⟨⟩⟩⟩)
    · exact succeeds_4096 (a := 0x100000ffe) (by decide) (by decide)
    · exact succeeds_4096 (a := 0x100000fff) (by decide) (by decide)
  exact ⟨(accessors_plain_iff 0xffffffff hs _ _).2 (by decide), by decide⟩

/-- A read and a write for which `open` gives the descriptor 0. -/
def zeroth : List (OsReply × Request) :=
  [(⟨4096, 0, some 0x40000000, true⟩, .read 0x41200000),
    (⟨4096, 0, some 0x40000000, true⟩, .write 7 0x41200000)]

/-- **With the descriptor 0 the area is lost**: the read reports an error, and the write uses a null
pointer. -/
theorem accessors_plain_zeroth :
    (∀ x ∈ zeroth, x.2.Succeeds x.1) ∧ ¬Plainly 0xffffffff zeroth (fun _ => 0) [] ∧
      zeroth.map (fun x => (x.2.run 0xffffffff x.1).2) = [some (-1), none] := by
  refine ⟨?_, fun ⟨_, hret⟩ => ?_, rfl⟩
  · rintro x (_ | ⟨_, _ | ⟨_, ⟨⟩⟩⟩)
    · exact succeeds_4096 (a := 0x41200000) (by decide) (by decide)
    · exact succeeds_4096 (a := 0x41200000) (by decide) (by decide)
  · exact absurd (hret _ (List.mem_cons_self ..)) (by decide)

/-! ## Discipline -/

/-- What is acquired from the system. -/
inductive Resource
  | descriptor (fd : Int)
  | window (ptr : Nat) (length : UInt32)
  | block
  deriving DecidableEq

/-- The acts that acquire, and those that give back. -/
def resources : Custody Act Resource where
  acquires
    | .os (.opened fd) => some (.descriptor fd)
    | .os (.mapped ptr length _) => some (.window ptr length)
    | .os .malloced => some .block
    | _ => none
  releases
    | .os (.closed fd) => some (.descriptor fd)
    | .os (.unmapped ptr length) => some (.window ptr length)
    | .os .freed => some .block
    | _ => none

/-- The pointer of an access. -/
def Act.pointer : Act → Option Int
  | .load p => some p
  | .store p _ => some p
  | .os _ => none

/-- The call has accessed one word, in a window that it has mapped, or has returned -1 without an
access; and it holds nothing that it has acquired. -/
structure Disciplined (t : Trace) : Prop where
  access : ((World.exec ⟨fun _ => 0, [], []⟩ t.1).isSome ∧ (t.1.filterMap Act.pointer).length = 1) ∨
    (t.2 = some (-1) ∧ t.1.filterMap Act.pointer = [])
  released : resources.Moves [] t.1 []

/-- The word at the index `offset` lies in a window of `length` bytes. -/
def InWindow (offset : Int) (length : UInt32) : Prop := 0 ≤ offset ∧ 4 * offset + 4 ≤ length.toNat

/-- **When a call is disciplined.** -/
def Request.Sound (os : OsReply) : Request → Prop
  | .read addr => addr = 0 ∨ os.fd < 0 ∨ (1 ≤ os.fd ∧ (os.map = none ∨
      (os.block = true ∧ (os.pageOffset addr).toNat + 4 ≤ (2 * os.pageSize).toNat)))
  | .write _ addr => addr ≠ 0 ∧ 1 ≤ os.fd ∧ os.map ≠ none ∧ os.block = true ∧
      (os.pageOffset addr).toNat + 4 ≤ (2 * os.pageSize).toNat
  | .readUio offset length => os.fd < 0 ∨ (1 ≤ os.fd ∧ ((os.map = none ∧ os.block = false) ∨
      (os.map ≠ none ∧ os.map ≠ some 0 ∧ os.block = true ∧ InWindow offset length)))
  | .writeUio _ offset length => 1 ≤ os.fd ∧ os.map ≠ none ∧ os.map ≠ some 0 ∧ os.block = true ∧
      InWindow offset length

/-- An access is done where its word lies in a window. -/
theorem act_access {w : World} {access : Act} {p : Int} (hp : access.pointer = some p) :
    (w.act access).isSome ↔ (w.word p).isSome := by
  cases access with
  | os x => exact absurd hp (by simp [Act.pointer])
  | load q | store q v =>
    obtain rfl := Option.some.inj hp
    rw [World.act, Option.isSome_map]

/-- Giving an area back does not fault. -/
theorem exec_cleanup (w : World) (mem : SharedMemory) :
    (w.exec ((cleanupSharedMemoryPointer mem).map .os)).isSome := rfl

/-- Calls of the system are no accesses. -/
theorem pointers_os (log : List OsEvent) : (log.map Act.os).filterMap Act.pointer = [] := by
  rw [List.filterMap_map]
  exact List.filterMap_eq_nil_iff.2 fun x _ => rfl

/-- The accesses of a call through an area. -/
theorem pointers_accessThrough {mem : SharedMemory} {log : List OsEvent} {access : Act} {p : Int}
    (hp : access.pointer = some p) :
    (accessThrough mem log access).1.filterMap Act.pointer = [p] := by
  rw [accessThrough, List.filterMap_append, List.filterMap_cons_some hp, pointers_os, pointers_os,
    List.nil_append]

/-- A call through an area is done where the access is. -/
theorem exec_isSome_iff (mem : SharedMemory) {log : List OsEvent} {access : Act} {p : Int}
    {w w' : World} (hp : access.pointer = some p) (hlog : w.exec (log.map .os) = some w') :
    (w.exec (accessThrough mem log access).1).isSome ↔ (w'.word p).isSome := by
  rw [accessThrough, World.exec_append, hlog, Option.bind_some, World.exec, List.foldlM_cons,
    ← act_access hp]
  cases h : w'.act access with
  | none => rfl
  | some w'' => exact iff_of_true (exec_cleanup w'' mem) rfl

/-- An access through an area, in a window of its own, is disciplined exactly when it stays in the
window. -/
theorem accessThrough_disciplined (mem : SharedMemory) (phys : Nat) {access : Act} {p : Int}
    (hp : access.pointer = some p) :
    Disciplined (accessThrough mem
        [.opened mem.fd, .mapped mem.originalPtr mem.length phys, .malloced] access) ↔
      (mem.originalPtr : Int) ≤ p ∧ p + 4 ≤ mem.originalPtr + mem.length.toNat := by
  have hword : (World.word ⟨fun _ => 0, [⟨mem.originalPtr, mem.length, phys⟩], []⟩ p).isSome ↔
      (mem.originalPtr : Int) ≤ p ∧ p + 4 ≤ mem.originalPtr + mem.length.toNat := by
    have h := World.word_view (w := ⟨fun _ => 0, [], []⟩) (v := ⟨mem.originalPtr, mem.length, phys⟩)
      (p := p)
    rw [h]
    split
    · rename_i hin
      exact iff_of_true rfl hin
    · rename_i hout
      exact iff_of_false (by simp [World.word]) hout
  have hexec := exec_isSome_iff mem (w := ⟨fun _ => 0, [], []⟩) hp
    (show World.exec _ (List.map .os [.opened mem.fd, .mapped mem.originalPtr mem.length phys,
      .malloced]) = some _ from rfl)
  rw [← hword, ← hexec]
  constructor
  · rintro ⟨⟨h, -⟩ | ⟨h, -⟩, -⟩
    · exact h
    · exact absurd h (by simp [accessThrough])
  · refine fun h => ⟨Or.inl ⟨h, by rw [pointers_accessThrough hp]; rfl⟩, ?_⟩
    have hneutral : resources.acquires access = none ∧ resources.releases access = none := by
      cases access with
      | os x => exact absurd hp (by simp [Act.pointer])
      | load | store => exact ⟨rfl, rfl⟩
    rw [Custody.Moves, accessThrough, List.filterMap_append, List.filterMap_append,
      List.filterMap_cons_none hneutral.1, List.filterMap_cons_none hneutral.2]
    exact (List.Perm.swap ..)

/-- What has failed without an access is disciplined when it says so and keeps nothing. -/
theorem failed_disciplined {log : List OsEvent} {rc : Option Int} :
    Disciplined (log.map .os, rc) ↔ rc = some (-1) ∧ resources.Moves [] (log.map .os) [] := by
  constructor
  · rintro ⟨⟨-, h⟩ | ⟨h, -⟩, hmoves⟩
    · rw [pointers_os] at h
      exact absurd h (by decide)
    · exact ⟨h, hmoves⟩
  · exact fun ⟨h, hmoves⟩ => ⟨Or.inr ⟨h, pointers_os log⟩, hmoves⟩

/-- The accessors of the shared memory: `rc` is what they make of a null pointer. -/
theorem shared_disciplined {os : OsReply} {a : UInt64} {length : UInt32}
    {access : SharedMemory → Act} {rc : Option Int}
    (haccess : ∀ mem, (access mem).pointer = some (mem.ptr : Int)) {t : Trace}
    (ht : t = match getSharedMemoryArea os a length with
      | (none, log) => (log.map .os, rc)
      | (some mem, log) => accessThrough mem log (access mem)) :
    Disciplined t ↔
      (rc = some (-1) ∧ (a = 0 ∨ os.fd < 0 ∨ (1 ≤ os.fd ∧ os.map = none))) ∨
      (a ≠ 0 ∧ 1 ≤ os.fd ∧ os.map ≠ none ∧ os.block = true ∧
        (os.pageOffset a).toNat + 4 ≤ (2 * os.pageSize).toNat) := by
  have hcases := getSharedMemoryArea_cases os a length
  generalize getSharedMemoryArea os a length = r at hcases ht
  subst ht
  cases hcases with
  | unopened h =>
    rw [failed_disciplined]
    constructor
    · exact fun ⟨hrc, _⟩ => Or.inl ⟨hrc, h.imp_right Or.inl⟩
    · rintro (⟨hrc, -⟩ | ⟨ha, hfd, -⟩)
      · exact ⟨hrc, Custody.Moves.refl []⟩
      · exact absurd h (by rintro (h | h); exacts [ha h, by omega])
  | zero ha hfd =>
    rw [failed_disciplined]
    refine iff_of_false (fun ⟨_, h⟩ => absurd h (by decide)) ?_
    rintro (⟨-, h | h | ⟨h, -⟩⟩ | ⟨-, h, -⟩)
    · exact ha h
    all_goals omega
  | unmapped ha hfd hmap =>
    rw [failed_disciplined]
    constructor
    · exact fun ⟨hrc, _⟩ => Or.inl ⟨hrc, Or.inr (Or.inr ⟨hfd, hmap⟩)⟩
    · rintro (⟨hrc, -⟩ | ⟨-, -, h, -⟩)
      · exact ⟨hrc, List.Perm.refl _⟩
      · exact absurd hmap h
  | lost ha hfd hmap hblock =>
    rw [failed_disciplined]
    refine iff_of_false (fun ⟨_, h⟩ => absurd h.length_eq (by simp [resources])) ?_
    rintro (⟨-, h | h | ⟨-, h⟩⟩ | ⟨-, -, -, h, -⟩)
    · exact ha h
    · omega
    · rw [hmap] at h
      exact absurd h (Option.some_ne_none _)
    · rw [hblock] at h
      exact absurd h (by decide)
  | @area ptr ha hfd hmap hblock =>
    have hdone := accessThrough_disciplined (os.area a ptr) (os.pageBase a).toNat
      (haccess (os.area a ptr))
    refine hdone.trans ⟨fun h => Or.inr ⟨ha, hfd, ?_, hblock, ?_⟩, ?_⟩
    · rw [hmap]
      exact Option.some_ne_none _
    · dsimp only [OsReply.area] at h
      omega
    · rintro (⟨-, h | h | ⟨-, h⟩⟩ | ⟨-, -, -, -, h⟩)
      · exact absurd h ha
      · omega
      · rw [hmap] at h
        exact absurd h (Option.some_ne_none _)
      · dsimp only [OsReply.area]
        omega

/-- The accessors of a file: `rc` is what they make of a null pointer. -/
theorem uio_disciplined {mapFailed : Nat} {os : OsReply} {offset : Int} {length : UInt32}
    {access : SharedMemory → Act} {rc : Option Int} (hfail : mapFailed ≠ 0)
    (haccess : ∀ mem, (access mem).pointer = some (mem.ptr + 4 * offset)) {t : Trace}
    (ht : t = match getUioMemoryArea mapFailed os length with
      | (none, log) => (log.map .os, rc)
      | (some mem, log) => accessThrough mem log (access mem)) :
    Disciplined t ↔
      (rc = some (-1) ∧ (os.fd < 0 ∨ (1 ≤ os.fd ∧ os.map = none ∧ os.block = false))) ∨
      (1 ≤ os.fd ∧ os.map ≠ none ∧ os.map ≠ some 0 ∧ os.block = true ∧ InWindow offset length) := by
  have hcases := getUioMemoryArea_cases hfail os length
  generalize getUioMemoryArea mapFailed os length = r at hcases ht
  subst ht
  cases hcases with
  | unopened hfd =>
    rw [failed_disciplined]
    constructor
    · exact fun ⟨hrc, _⟩ => Or.inl ⟨hrc, Or.inl hfd⟩
    · rintro (⟨hrc, -⟩ | ⟨h, -⟩)
      · exact ⟨hrc, Custody.Moves.refl []⟩
      · omega
  | zero hfd =>
    rw [failed_disciplined]
    refine iff_of_false (fun ⟨_, h⟩ => absurd h (by decide)) ?_
    rintro (⟨-, h | ⟨h, -⟩⟩ | ⟨h, -⟩) <;> omega
  | bogus hfd hmap hblock =>
    have hexec := exec_isSome_iff (os.uioArea mapFailed length) (w := ⟨fun _ => 0, [], []⟩)
      (haccess (os.uioArea mapFailed length))
      (show World.exec _ (List.map .os [.opened os.fd, .malloced]) = some _ from rfl)
    refine iff_of_false ?_ ?_
    · rintro ⟨⟨h, -⟩ | ⟨h, -⟩, -⟩
      · exact absurd (hexec.1 h) (by simp [World.word])
      · exact absurd h (by simp [accessThrough])
    · rintro (⟨-, h | ⟨-, -, h⟩⟩ | ⟨-, h, -⟩)
      · omega
      · rw [hblock] at h
        exact absurd h (by decide)
      · exact h hmap
  | unmapped hfd hmap hblock =>
    rw [failed_disciplined]
    constructor
    · exact fun ⟨hrc, _⟩ => Or.inl ⟨hrc, Or.inr ⟨hfd, hmap, hblock⟩⟩
    · rintro (⟨hrc, -⟩ | ⟨-, h, -⟩)
      · exact ⟨hrc, List.Perm.refl _⟩
      · exact absurd hmap h
  | lost hfd hmap hnot =>
    rw [failed_disciplined]
    refine iff_of_false (fun ⟨_, h⟩ => absurd h.length_eq (by simp [resources])) ?_
    rw [hmap]
    rintro (⟨-, h | ⟨-, h, -⟩⟩ | ⟨-, -, hptr, hblock, -⟩)
    · omega
    · exact absurd h (Option.some_ne_none _)
    · rcases hnot with rfl | hnot
      · exact hptr rfl
      · rw [hnot] at hblock
        exact absurd hblock (by decide)
  | @area ptr hfd hmap hptr hblock =>
    have hdone := accessThrough_disciplined (os.uioArea ptr length) 0
      (haccess (os.uioArea ptr length))
    rw [hmap]
    refine hdone.trans ⟨fun h => Or.inr ⟨hfd, Option.some_ne_none _, ?_, hblock, ?_⟩, ?_⟩
    · exact fun h0 => hptr (Option.some.inj h0)
    · dsimp only [OsReply.uioArea] at h
      exact ⟨by omega, by omega⟩
    · rintro (⟨-, h | ⟨-, h, -⟩⟩ | ⟨-, -, -, -, h1, h2⟩)
      · omega
      · exact absurd h (Option.some_ne_none _)
      · dsimp only [OsReply.uioArea]
        omega

/-- **A call is disciplined exactly when it is sound.** -/
theorem run_disciplined {mapFailed : Nat} (hfail : mapFailed ≠ 0) (os : OsReply) (r : Request) :
    Disciplined (r.run mapFailed os) ↔ r.Sound os := by
  cases r with
  | read a =>
    rw [shared_disciplined (t := Request.run mapFailed os (.read a)) (fun _ => rfl) rfl]
    constructor
    · rintro (⟨-, h | h | ⟨hfd, hmap⟩⟩ | ⟨-, hfd, -, hin⟩)
      · exact Or.inl h
      · exact Or.inr (Or.inl h)
      · exact Or.inr (Or.inr ⟨hfd, Or.inl hmap⟩)
      · exact Or.inr (Or.inr ⟨hfd, Or.inr hin⟩)
    · rintro (h | h | ⟨hfd, hmap | hin⟩)
      · exact Or.inl ⟨rfl, Or.inl h⟩
      · exact Or.inl ⟨rfl, Or.inr (Or.inl h)⟩
      · exact Or.inl ⟨rfl, Or.inr (Or.inr ⟨hfd, hmap⟩)⟩
      · by_cases ha : a = 0
        · exact Or.inl ⟨rfl, Or.inl ha⟩
        by_cases hmap : os.map = none
        · exact Or.inl ⟨rfl, Or.inr (Or.inr ⟨hfd, hmap⟩)⟩
        exact Or.inr ⟨ha, hfd, hmap, hin⟩
  | write v a =>
    rw [shared_disciplined (t := Request.run mapFailed os (.write v a)) (fun _ => rfl) rfl]
    exact or_iff_right (fun h => absurd h.1 (by simp))
  | readUio offset length =>
    rw [uio_disciplined (t := Request.run mapFailed os (.readUio offset length)) hfail
      (fun _ => rfl) rfl]
    constructor
    · rintro (⟨-, h | ⟨hfd, hmap⟩⟩ | ⟨hfd, hin⟩)
      · exact Or.inl h
      · exact Or.inr ⟨hfd, Or.inl hmap⟩
      · exact Or.inr ⟨hfd, Or.inr hin⟩
    · rintro (h | ⟨hfd, hmap | hin⟩)
      · exact Or.inl ⟨rfl, Or.inl h⟩
      · exact Or.inl ⟨rfl, Or.inr ⟨hfd, hmap⟩⟩
      · exact Or.inr ⟨hfd, hin⟩
  | writeUio v offset length =>
    rw [uio_disciplined (t := Request.run mapFailed os (.writeUio v offset length)) hfail
      (fun _ => rfl) rfl]
    exact or_iff_right (fun h => absurd h.1 (by simp))

/-! ## Sequences of calls -/

/-- An act that is done with some windows is done with more of them. -/
theorem act_mono {w w₁ w' : World} {us : List View} {x : Act} (hviews : w'.views = w.views ++ us)
    (h : w.act x = some w₁) : ∃ w₁' us', w'.act x = some w₁' ∧ w₁'.views = w₁.views ++ us' := by
  have hword : ∀ p a, w.word p = some a → w'.word p = some a := by
    intro p a ha
    rw [World.word, hviews, List.find?_append]
    rw [World.word] at ha
    cases hfind : w.views.find? _ with
    | none => rw [hfind] at ha; exact absurd ha (by simp)
    | some v => rwa [hfind] at ha
  cases x with
  | load p | store p v =>
    obtain ⟨a, ha, rfl⟩ := Option.map_eq_some_iff.1 h
    rw [World.act, hword p a ha]
    exact ⟨_, us, rfl, hviews⟩
  | os x =>
    cases x with
    | mapped ptr length phys =>
      obtain rfl := Option.some.inj h
      exact ⟨_, us, rfl, congrArg (_ :: ·) hviews⟩
    | unmapped ptr length =>
      obtain rfl := Option.some.inj h
      refine ⟨_, if w.views.any fun v => v.ptr = ptr && v.length = length then us else
        us.eraseP fun v => v.ptr = ptr && v.length = length, rfl, ?_⟩
      dsimp only
      rw [hviews, List.eraseP_append]
      split
      · rfl
      · rename_i hnone
        have hsame : (w.views.eraseP fun v => v.ptr = ptr && v.length = length) = w.views :=
          List.eraseP_of_forall_not (by simpa using hnone)
        rw [hsame]
    | opened | malloced | closed | freed =>
      obtain rfl := Option.some.inj h
      exact ⟨_, us, rfl, hviews⟩

/-- So are acts one after the other. -/
theorem exec_mono {acts : List Act} : ∀ {w w₁ w' : World} {us : List View},
    w'.views = w.views ++ us → w.exec acts = some w₁ → ∃ w₁', w'.exec acts = some w₁' := by
  induction acts with
  | nil => exact fun _ _ => ⟨_, rfl⟩
  | cons x acts ih =>
    intro w w₁ w' us hviews h
    rw [World.exec, List.foldlM_cons] at h
    obtain ⟨w₂, hx, hrest⟩ := Option.bind_eq_some_iff.1 h
    obtain ⟨w₂', us', hx', hviews'⟩ := act_mono hviews hx
    rw [World.exec, List.foldlM_cons, hx']
    exact ih hviews' hrest

/-- Without an access nothing faults. -/
theorem exec_of_silent {acts : List Act} (h : acts.filterMap Act.pointer = []) :
    ∀ w : World, ∃ w', w.exec acts = some w' := by
  induction acts with
  | nil => exact fun w => ⟨w, rfl⟩
  | cons x acts ih =>
    intro w
    cases x with
    | load | store => exact absurd h (by simp [Act.pointer])
    | os x =>
      obtain ⟨w₁, hw₁⟩ : ∃ w₁, w.act (.os x) = some w₁ := by cases x <;> exact ⟨_, rfl⟩
      obtain ⟨w', hw'⟩ := ih (by rwa [List.filterMap_cons_none rfl] at h) w₁
      exact ⟨w', by rw [World.exec, List.foldlM_cons, hw₁]; exact hw'⟩

/-- A call that uses a null pointer has accessed nothing before. -/
theorem pointers_of_null {mapFailed : Nat} {os : OsReply} {r : Request}
    (h : (r.run mapFailed os).2 = none) : (r.run mapFailed os).1.filterMap Act.pointer = [] := by
  cases r with
  | read a =>
    rw [Request.run, getValueAtAddress] at h ⊢
    split at h
    · exact absurd h (by simp)
    · exact absurd h (by simp [accessThrough])
  | write v a =>
    rw [Request.run, writeValueToAddress] at h ⊢
    split at h
    · exact pointers_os _
    · exact absurd h (by simp [accessThrough])
  | readUio offset length =>
    rw [Request.run, getValueAtAddressUio] at h ⊢
    split at h
    · exact absurd h (by simp)
    · exact absurd h (by simp [accessThrough])
  | writeUio v offset length =>
    rw [Request.run, writeValueToAddressUio] at h ⊢
    split at h
    · exact pointers_os _
    · exact absurd h (by simp [accessThrough])

/-- A disciplined call comes back, whatever else is mapped. -/
theorem Disciplined.returns {mapFailed : Nat} {os : OsReply} {r : Request}
    (h : Disciplined (r.run mapFailed os)) (w : World) :
    ∃ w' rc, w.exec (r.run mapFailed os).1 = some w' ∧ (r.run mapFailed os).2 = some rc := by
  rcases h.access with ⟨hexec, hone⟩ | ⟨hrc, hnone⟩
  · obtain ⟨w₁, hw₁⟩ := Option.isSome_iff_exists.1 hexec
    obtain ⟨w', hw'⟩ := exec_mono (show w.views = [] ++ w.views from rfl) hw₁
    cases hrc : (r.run mapFailed os).2 with
    | none =>
      rw [pointers_of_null hrc] at hone
      exact absurd hone (by decide)
    | some rc => exact ⟨w', rc, hw', rfl⟩
  · obtain ⟨w', hw'⟩ := exec_of_silent hnone w
    exact ⟨w', -1, hw', hrc⟩

/-- The calls that are made, one after the other, from the world `w`: the program does not survive a
fault. -/
def performed (mapFailed : Nat) : World → List (OsReply × Request) → List Trace
  | _, [] => []
  | w, (os, r) :: calls =>
    match w.exec (r.run mapFailed os).1, (r.run mapFailed os).2 with
    | some w', some _ => r.run mapFailed os :: performed mapFailed w' calls
    | _, _ => [r.run mapFailed os]

/-- **The discipline of the accessors**: in a sequence of calls every one that is made is
disciplined exactly when all of them are sound. -/
theorem accessors_disciplined {mapFailed : Nat} (hfail : mapFailed ≠ 0) (w : World)
    (calls : List (OsReply × Request)) :
    (∀ t ∈ performed mapFailed w calls, Disciplined t) ↔ ∀ x ∈ calls, x.2.Sound x.1 := by
  induction calls generalizing w with
  | nil => simp [performed]
  | cons x calls ih =>
    obtain ⟨os, r⟩ := x
    have hfirst := run_disciplined hfail os r
    by_cases hsound : r.Sound os
    · obtain ⟨w', rc, hw', hrc⟩ := (hfirst.2 hsound).returns w
      have hperformed : performed mapFailed w ((os, r) :: calls) =
          r.run mapFailed os :: performed mapFailed w' calls := by
        rw [performed, hw', hrc]
      rw [hperformed, List.forall_mem_cons, List.forall_mem_cons, hfirst, ih w']
    · have hmem : r.run mapFailed os ∈ performed mapFailed w ((os, r) :: calls) := by
        rw [performed]
        split <;> simp
      exact iff_of_false (fun h => hsound (hfirst.1 (h _ hmem)))
        fun h => hsound (h (os, r) (by simp))

/-- A read that cannot open its file, and a write of a register of a file. -/
theorem accessors_disciplined_uio : ∃ w, ∀ t ∈ performed 0xffffffff w
    [(⟨4096, -1, none, false⟩, .read 0x41200000),
      (⟨4096, 3, some 0x70000000, true⟩, .writeUio 7 5 0x10000)], Disciplined t := by
  refine ⟨⟨fun _ => 0, [], []⟩, (accessors_disciplined (by decide) _ _).2 ?_⟩
  refine List.forall_mem_cons.2 ⟨Or.inr (Or.inl (by decide)), List.forall_mem_singleton.2 ?_⟩
  exact ⟨by decide, Option.some_ne_none _, by decide, rfl, by decide, by decide⟩

/-- **The first of them as a write**: it uses a null pointer. -/
theorem accessors_undisciplined : ∃ t ∈ performed 0xffffffff ⟨fun _ => 0, [], []⟩
    [(⟨4096, -1, none, false⟩, .write 7 0x41200000)], ¬Disciplined t := by
  refine ⟨([], none), List.mem_singleton.2 rfl, fun h => ?_⟩
  rcases h.access with ⟨-, h⟩ | ⟨h, -⟩
  · exact absurd h (by decide)
  · exact absurd h (by decide)

end Zedboard
