import Zedboard.Memmgr.Sessions

/-!
# Virtual and physical addresses

In a session over the shared region a pointer has two physical addresses: the one that
`lookupBufferPhysicalAddress` computes, from the base address that the session was opened with, and
the one that the mapping has given it, from `BASE_ADDRESS`.  `views_agree` says when they are the
same.
-/

set_option autoImplicit false

namespace Zedboard
namespace Memmgr

variable {e : Env}

/-- The session is not destroyed. -/
def Open (_ : State) (c : Call) : Prop := c ≠ .destroy

/-- While a session over a mapping is not destroyed, its pool and its base address stay as they
are. -/
theorem Calls.steady {x y : State × List OsEvent} {mem : SharedMemory} (R : Regular x.1)
    (hmem : x.1.sharedMem = some mem) (h : Calls e Open x y) :
    Regular y.1 ∧ y.1.sharedMem = some mem ∧ y.1.pool = x.1.pool ∧
      y.1.baseAddress = x.1.baseAddress := by
  induction h with
  | refl => exact ⟨R, hmem, rfl, rfl⟩
  | tail _ hstep ih =>
    obtain ⟨c, rc, log, hc, hcall, -⟩ := hstep
    obtain ⟨R', hmem', hpool, hbase⟩ := ih
    have hsession := (R'.mapped mem hmem').1
    rcases (R'.lawful hcall).steady with ⟨h, -⟩ | h | ⟨hp, -, hb, hm⟩
    · omega
    · exact absurd h hc
    · exact ⟨R'.step hcall, hm.trans hmem', hp.trans hpool, hb.trans hbase⟩

/-- A later state of the session that `s` has begun, after a block of memory has been handed out. -/
def HandsOut (e : Env) (s s' : State) : Prop :=
  ∃ y n p s₁ x, Calls e Open (s, []) y ∧ CallStep e y.1 (.alloc n) p s₁ [] ∧ p ≠ 0 ∧
    Calls e Open (s₁, []) x ∧ x.1 = s'

/-- Then there is a pool, and it is the one that the session has begun with. -/
theorem HandsOut.pool {s s' : State} {mem : SharedMemory} (R : Regular s)
    (hmem : s.sharedMem = some mem) (h : HandsOut e s s') :
    s'.pool = mem.ptr ∧ mem.ptr ≠ 0 ∧ s'.baseAddress = s.baseAddress := by
  obtain ⟨y, n, p, s₁, x, hbefore, halloc, hp, hafter, rfl⟩ := h
  obtain ⟨Ry, hmemy, hpooly, hbasey⟩ := hbefore.steady R hmem
  have halloced : Calls e Open y (s₁, y.2) :=
    Relation.ReflTransGen.single ⟨_, _, _, Call.noConfusion, halloc, (List.append_nil _).symm⟩
  obtain ⟨R₁, hmem₁, hpool₁, hbase₁⟩ := halloced.steady Ry hmemy
  obtain ⟨-, -, hpoolx, hbasex⟩ :=
    Calls.steady (x := (s₁, [])) R₁ hmem₁ hafter
  have hptr := (R.mapped mem hmem).2
  refine ⟨hpoolx.trans (hpool₁.trans (hpooly.trans hptr)), fun h0 => hp ?_,
    hbasex.trans (hbase₁.trans hbasey)⟩
  cases halloc with
  | alloc halloc =>
    rw [memmgrAlloc, if_pos (hpooly.trans (hptr.trans h0))] at halloc
    rw [← (Prod.mk.inj (Option.some.inj halloc)).1]
    rfl

/-- The place of a pointer in its window and the place of the pool in it are the same distance apart
in both address spaces. -/
theorem lookup_distance {base d off phys : Nat} (a : UInt32) (ptr : Nat) (h : phys + off = base) :
    a + (UInt32.ofNat (ptr + d) - UInt32.ofNat (ptr + off)) = UInt32.ofNat (phys + d) ↔
      a = UInt32.ofNat base := by
  subst h
  simp only [UInt32.ofNat_add]
  constructor
  · intro h
    grind
  · rintro rfl
    grind

/-- A number is the one in a word exactly when the word is its remainder and it fits. -/
theorem toNat_eq_iff {w : UInt32} {b : Nat} : w.toNat = b ↔ w = UInt32.ofNat b ∧ b < 2 ^ 32 := by
  constructor
  · rintro rfl
    exact ⟨UInt32.ofNat_toNat.symm, w.toNat_lt⟩
  · rintro ⟨rfl, h⟩
    exact UInt32.toNat_ofNat_of_lt' h

/-- **The two addresses of a pointer are the same exactly when the session has been opened with the
address that is mapped.**  This is about every pointer into the window, in a block or not. -/
theorem views_agree {Q : State → Call → Prop} {mem₀ : Mem} {x : State × List OsEvent} {os : OsReply}
    {length baseAddress : UInt32} {s s' : State} {log : List OsEvent} {q b : Nat}
    (hbefore : Calls e Q (State.loaded mem₀, []) x)
    (hopen : CallStep e x.1 (.initCheckSharedMem os length baseAddress) 0 s log)
    (hout : HandsOut e s s') (hq : Backs log q b) :
    (lookupBufferPhysicalAddress s' q).toNat = b ↔
      baseAddress = baseAddressConst ∧ b < 2 ^ 32 := by
  have R := hbefore.regular
  obtain ⟨-, mem, hmem, -, harea⟩ := (R.lawful hopen).opened _ _ _ rfl rfl
  obtain ⟨hpool, hptr, hbase⟩ := hout.pool (R.step hopen) hmem
  have hopened : s.baseAddress = baseAddress := by
    cases hopen with
    | initCheckSharedMem h =>
      rcases initCheckSharedMem_cases R h with ⟨-, h, -⟩ | ⟨-, h, -⟩ | ⟨hs, -, mem', -, rfl⟩
      · exact absurd h (by decide)
      · exact absurd h (by decide)
      · rw [memmgrInit_eq (show ({ x.1 with sharedMem := some mem' } : State).session = 0 from hs)]
  obtain ⟨ptr, -, rfl, rfl⟩ := getSharedMemoryArea_some harea
  obtain ⟨hle, hlt, rfl⟩ := backs_areaLog.1 hq
  obtain ⟨d, rfl⟩ := Nat.exists_eq_add_of_le hle
  have hpage : 0 < os.pageSize.toNat := by
    by_contra h0
    have hzero : os.pageSize = 0 := UInt32.toNat_inj.1 (Nat.le_zero.1 (Nat.le_of_not_lt h0))
    rw [hzero] at hlt
    exact absurd hlt (Nat.not_lt.2 (Nat.le_add_right ..))
  have hsum := pageBase_add_pageOffset baseAddressConst.toUInt64 hpage
  rw [UInt32.toNat_toUInt64] at hsum
  have hdistance := lookup_distance (d := d) baseAddress ptr hsum
  rw [UInt32.ofNat_toNat] at hdistance
  rw [lookupBufferPhysicalAddress, if_neg (by rwa [hpool]), hpool, hbase, hopened, toNat_eq_iff,
    Nat.add_sub_cancel_left]
  exact and_congr_left' hdistance

/-- A block of 40 bytes is handed out, and its address looked up. -/
theorem zynq_lookup {a w : UInt32}
    (h : (memmgrAlloc Env.zynq 100 (zynqOpened true a).2.1 40).map (fun r =>
      (r.1, lookupBufferPhysicalAddress r.2 r.1)) = some (0x40000118, w)) :
    ∃ s', HandsOut Env.zynq (zynqOpened true a).2.1 s' ∧
      lookupBufferPhysicalAddress s' 0x40000118 = w := by
  obtain ⟨⟨p, s'⟩, halloc, hp⟩ := Option.map_eq_some_iff.1 h
  obtain ⟨rfl, hw⟩ := Prod.mk.inj hp
  exact ⟨s', ⟨_, 40, _, s', (s', []), .refl, .alloc halloc, by decide, .refl, rfl⟩, hw⟩

/-- The session's mapping backs the block. -/
theorem zynq_backs (a : UInt32) : Backs (zynqOpened true a).2.2 0x40000118 0x1f410118 :=
  backs_areaLog.2 ⟨by decide, by decide, by decide⟩

theorem views_agree_zynq : ∃ s', HandsOut Env.zynq (zynqOpened true baseAddressConst).2.1 s' ∧
    (lookupBufferPhysicalAddress s' 0x40000118).toNat = 0x1f410118 := by
  obtain ⟨s', hout, -⟩ := zynq_lookup (a := baseAddressConst) (w := 0x1f410118)
    (by decide +kernel)
  exact ⟨s', hout, (views_agree (x := (_, [])) (Q := fun _ _ => True) .refl
    (zynq_opens true baseAddressConst) hout (zynq_backs _)).2 ⟨rfl, by decide⟩⟩

/-- **Opened with another base address**, the session looks up addresses that are not mapped. -/
theorem views_disagree :
    ∃ s', (zynqOpened true 0).1 = 0 ∧ HandsOut Env.zynq (zynqOpened true 0).2.1 s' ∧
    Backs (zynqOpened true 0).2.2 0x40000118 0x1f410118 ∧
    (lookupBufferPhysicalAddress s' 0x40000118).toNat ≠ 0x1f410118 := by
  obtain ⟨s', hout, hlookup⟩ := zynq_lookup (a := 0) (w := 0x118) (by decide +kernel)
  refine ⟨s', rfl, hout, zynq_backs 0, ?_⟩
  rw [hlookup]
  decide

end Memmgr
end Zedboard
