import Zedboard.Aes.Dma

/-!
# No heap creep

The last partial block of a call takes two scratch blocks from the heap and gives them back.  Where
they are taken from depends on the roving pointer, but free blocks that meet are merged again, so
the heap comes back as it was, if it did not have to grow (`ctrHw_restores`).  It grows at most
once: afterwards there are two scratch blocks to be had (`no_creep`).

A length that overflows is the exception.  Its job is rounded up to whole blocks and may run over a
header behind the output (`heap_overrun`); calls that do not are `KeepsOff`.
-/

set_option autoImplicit false

namespace Zedboard

open Machine Prog

variable {P : Platform} {m m' m'' : Machine} {c c' : FpgaAes} {bs : List Memmgr.Block}
  {input output len i : Nat} {rc : Int}

/-! ## What a call leaves of the heap -/

/-- Only the memory has changed. -/
theorem Machine.ByBus.poolFreePos_eq (h : ByBus m m') :
    m'.session.st.poolFreePos = m.session.st.poolFreePos := by
  rw [h.session_eq]
  rfl

theorem Machine.ByBus.freep_eq (h : ByBus m m') : m'.session.st.freep = m.session.st.freep := by
  rw [h.session_eq]
  rfl

theorem aesEncrypt_byBus {n : Nat} {source dest : UInt32} {mode : Int}
    (h : aesEncrypt P c n source dest mode m = .ok c' m') : ByBus m m' := by
  obtain ⟨-, rfl⟩ := EStateM.Result.ok.inj h
  exact (ByBus.posted m _ _).trans (.runJob _ _ _ _)

/-- What is behind the leftover of the last keystream block. -/
theorem ctrRest_restores (I : Memmgr.Inv P.env m.session bs)
    (hf : 2 * m.session.st.poolSize.toNat + 2 ≤ P.fuel) (hlen : len - i < 2 ^ 31) (hi : i ≤ len)
    (hin : m.session.Owns input len) (hout : m.session.Owns output len)
    (hcall : ctrRest P c input len output (m.phys input) (m.phys output) i m = .ok (rc, c') m') :
    if (len - i) % 16 = 0 then Memmgr.Inv P.env m'.session bs ∧
      m'.session.st.poolFreePos = m.session.st.poolFreePos
    else ∃ bs', Restores P m bs m' bs' := by
  obtain ⟨c₁, m₁, e₁, -, hup, I₁, l₁, hserves, F₁, -⟩ := ctr_blocks I c hlen hi hin hout
  have hpos := (aesEncrypt_byBus e₁).poolFreePos_eq
  by_cases hr : (len - i) % 16 = 0
  · rw [if_pos hr]
    rw [ctrRest_eq c input output _ _ hlen, bind_of_ok e₁] at hcall
    simp only [hr, lt_irrefl, if_false] at hcall
    obtain ⟨-, rfl⟩ := eq_of_pure hcall
    exact ⟨I₁, hpos⟩
  · rw [if_neg hr]
    have h2 : Memmgr.Serves P.env m.session.st bs 2 := by
      by_contra hnot
      exact (ctrRest_stops I hf c hlen hi hin hout hr hnot).not_ok hcall
    have hlive : ∀ x ∈ m.session.live, x ∈ m₁.session.live := fun x hx => by rwa [l₁]
    have hq : i + (len - i) / 16 * 16 + (len - i) % 16 ≤ len := by omega
    obtain ⟨c₂, m₂, t, u, e₂, -, ⟨bs', R⟩, -⟩ := ctrTail_returns
      (c := addIvCipher c₁ (UInt32.ofNat ((len - i) / 16))) I₁ (by rwa [F₁.poolSize_eq]) hup
      ((hin.part hq).mono hlive) ((hout.part hq).mono hlive) ((hserves 2).2 h2)
    rw [ctrRest_eq c input output _ _ hlen, bind_of_ok e₁] at hcall
    rw [← Nat.add_assoc, ← Nat.add_assoc] at e₂
    rw [if_pos (Nat.pos_of_ne_zero hr), bind_of_ok e₂] at hcall
    obtain ⟨-, rfl⟩ := eq_of_pure hcall
    refine ⟨bs', R.1, ?_⟩
    rw [← hpos]
    exact R.2

/-- **A call restores the heap**, and leaves it alone if it ends with a whole block. -/
theorem ctrHw_restores (I : Memmgr.Inv P.env m.session bs)
    (hf : 2 * m.session.st.poolSize.toNat + 2 ≤ P.fuel)
    (hlen : len - c.core.leftover len < 2 ^ 31) (hin : m.session.Owns input len)
    (hout : m.session.Owns output len)
    (hcall : aesEncryptCtrHw P c input len output (m.phys input) (m.phys output) m =
      .ok (rc, c') m') :
    if c.core.extraBytes len = 0 then Memmgr.Inv P.env m'.session bs ∧
      m'.session.st.poolFreePos = m.session.st.poolFreePos
    else ∃ bs', Restores P m bs m' bs' := by
  obtain ⟨f, hrun, -⟩ := ctrHw_leftover P m c input output len (m.phys input) (m.phys output)
  have hle := leftover_le c.core len
  have I₁ : Memmgr.Inv P.env
      (m.withMem (m.session.st.mem.fill output (c.core.leftover len) f)).session bs :=
    inv_fill I f fun a h1 h2 => hout.usable h1 (by omega)
  rw [hcall] at hrun
  by_cases hshort : 0 < c.lastLocation ∧ len ≤ c.core.leftover len
  · rw [if_pos hshort] at hrun
    obtain ⟨-, rfl⟩ := eq_of_pure hrun.symm
    have hextra : c.core.extraBytes len = 0 := by
      rw [Core.extraBytes, Nat.sub_eq_zero_of_le hshort.2]
    rw [if_pos hextra]
    exact ⟨I₁, rfl⟩
  · rw [if_neg hshort] at hrun
    have hrest := ctrRest_restores
      (m := m.withMem (m.session.st.mem.fill output (c.core.leftover len) f))
      (c := c.begun (m.phys input) len) I₁ hf hlen hle hin hout hrun.symm
    exact hrest

/-- The heap is made of the same blocks, and the clients hold what they held. -/
structure Steady (P : Platform) (bs : List Memmgr.Block) (m m' : Machine) : Prop where
  inv : Memmgr.Inv P.env m'.session bs
  live_eq : m'.session.live = m.session.live
  pos_eq : m'.session.st.poolFreePos = m.session.st.poolFreePos
  pool_eq : m'.session.st.pool = m.session.st.pool
  poolSize_eq : m'.session.st.poolSize = m.session.st.poolSize

namespace Steady

theorem refl (I : Memmgr.Inv P.env m.session bs) : Steady P bs m m := ⟨I, rfl, rfl, rfl, rfl⟩

theorem trans (h : Steady P bs m m') (h' : Steady P bs m' m'') : Steady P bs m m'' where
  inv := h'.inv
  live_eq := h'.live_eq.trans h.live_eq
  pos_eq := h'.pos_eq.trans h.pos_eq
  pool_eq := h'.pool_eq.trans h.pool_eq
  poolSize_eq := h'.poolSize_eq.trans h.poolSize_eq

/-- Only the memory has changed, and no header. -/
theorem of_byBus (I : Memmgr.Inv P.env m.session bs) (h : ByBus m m')
    (hm : ∀ q ∈ P.env.base :: bs.map Memmgr.Block.addr, ∀ x, q ≤ x → x < q + P.env.hdr →
      m'.session.st.mem x = m.session.st.mem x) : Steady P bs m m' := by
  have hsession := h.session_eq
  refine ⟨?_, ?_, h.poolFreePos_eq, ?_, ?_⟩
  · rw [hsession]
    exact I.of_mem hm
  · rw [hsession]
    rfl
  · rw [hsession]
    rfl
  · rw [hsession]
    rfl

end Steady

/-! ## Lengths that overflow -/

/-- How many bytes a call stores whose length overflows: it is rounded up. -/
def FpgaAes.roundedUp (c : FpgaAes) (len : Nat) : Nat :=
  c.core.leftover len + (len - c.core.leftover len + 15) / 16 * 16

/-- The call runs over no header: its length does not overflow, or no block begins in what it stores
behind the output. -/
def KeepsOff (bs : List Memmgr.Block) (c : FpgaAes) (output len : Nat) : Prop :=
  len - c.core.leftover len < 2 ^ 31 ∨
    ∀ b ∈ bs, b.addr < output + len ∨ output + c.roundedUp len ≤ b.addr

/-- No payload ends in the last bytes of the bus. -/
theorem payload_end_le (I : Memmgr.Inv P.env m.session bs) (h : m.session.Owns output len) :
    output + len + 16 ≤ m.session.st.pool + 2 ^ 32 := by
  obtain ⟨q, n, hlive, -, hup⟩ := h
  obtain ⟨l, b, r, rfl, -, hbq, hlen⟩ := I.exists_block hlive
  obtain ⟨-, L⟩ := I.layout (Or.inl (by simp))
  obtain ⟨k, hk⟩ := Memmgr.tiles_multiple (tiles_append_cons.1 L.tiles).1
  have hend := (L.bounds (b := b) (by simp)).2.2
  have hinside := L.inside
  have hsize := m.session.st.poolSize.toNat_lt
  have hhdr : P.env.hdr = 20 ∨ P.env.hdr = 32 := by
    rw [Env.hdr]
    cases P.env.abi
    · exact Or.inl rfl
    · exact Or.inr rfl
  rw [Memmgr.Block.bytes] at hlen hend
  rcases hhdr with hhdr | hhdr
  · rw [hhdr] at hk hlen hend
    omega
  · rw [hhdr] at hk hlen hend
    omega

/-- A header that does not begin behind a payload lies before it. -/
theorem header_before (I : Memmgr.Inv P.env m.session bs) (h : m.session.Owns output len)
    (hpos : 0 < len) {q x : Nat} (hq : q ∈ P.env.base :: bs.map Memmgr.Block.addr)
    (hlt : q < output + len) (hx : x < q + P.env.hdr) : x < output := by
  have hhdr := P.env.hdr_pos
  by_contra hge
  by_cases hqo : q < output
  · have := I.outside (h.usable (e := P.env) (a := output) le_rfl (by omega)) hq
    omega
  · have := I.outside (h.usable (e := P.env) (a := q) (by omega) hlt) hq
    omega

/-- No header is touched by `n` bytes from `output` on if no block begins in those of them that are
behind the payload. -/
theorem header_outside (I : Memmgr.Inv P.env m.session bs) (h : m.session.Owns output len)
    (hpos : 0 < len) {n q x : Nat} (hq : q ∈ P.env.base :: bs.map Memmgr.Block.addr) (h1 : q ≤ x)
    (h2 : x < q + P.env.hdr) (hin : m.InPool x)
    (hoff : ∀ b ∈ bs, b.addr < output + len ∨ output + n ≤ b.addr) :
    x < output ∨ output + n ≤ x := by
  obtain ⟨Pl, -⟩ := I.placed h
  obtain ⟨-, hlow, hup⟩ := hin
  rcases List.mem_cons.1 hq with rfl | hmem
  · have hbeside := Pl.beside
    omega
  · obtain ⟨b, hb, rfl⟩ := List.mem_map.1 hmem
    rcases hoff b hb with hlt | hge
    · exact Or.inl (header_before I h hpos hq hlt h2)
    · exact Or.inr (by omega)

/-- A call whose length overflows is one job. -/
theorem ctrHw_long_ok (P : Platform) (m : Machine) (c : FpgaAes) (input output : Nat)
    (hlen : 2 ^ 31 ≤ len - c.core.leftover len) (hmax : len + 16 ≤ 2 ^ 32) :
    ∃ f n c' regs, (dataLength n).toNat = (len - c.core.leftover len + 15) / 16 * 16 ∧
      aesEncryptCtrHw P c input len output (m.phys input) (m.phys output) m = .ok (cInt len, c')
        (runJob P.aes (jobFor (c.begun (m.phys input) len).updating n
            (m.phys input + UInt32.ofNat (c.core.leftover len))
            (m.phys output + UInt32.ofNat (c.core.leftover len)) 2) ((dataLength n).toNat / 16)
          ((m.withMem (m.session.st.mem.fill output (c.core.leftover len) f)).posted regs
            (jobFor (c.begun (m.phys input) len).updating n
              (m.phys input + UInt32.ofNat (c.core.leftover len))
              (m.phys output + UInt32.ofNat (c.core.leftover len)) 2))) := by
  obtain ⟨f, hrun, -⟩ := ctrHw_leftover P m c input output len (m.phys input) (m.phys output)
  rw [if_neg (by omega)] at hrun
  obtain ⟨n, c', regs, hn, hrest⟩ := ctrRest_long_ok P
    (m.withMem (m.session.st.mem.fill output (c.core.leftover len) f)) (c.begun (m.phys input) len)
    input output (m.phys input) (m.phys output) hlen (by omega)
  exact ⟨f, n, c', regs, hn, hrun.trans hrest⟩

/-- **It returns, and the heap is the same** if it ran over no header. -/
theorem ctrHw_long (I : Memmgr.Inv P.env m.session bs)
    (hlen : 2 ^ 31 ≤ len - c.core.leftover len) (hout : m.session.Owns output len) :
    ∃ c' m', aesEncryptCtrHw P c input len output (m.phys input) (m.phys output) m =
        .ok (cInt len, c') m' ∧
      ((∀ b ∈ bs, b.addr < output + len ∨ output + c.roundedUp len ≤ b.addr) →
        Steady P bs m m') := by
  obtain ⟨Pl, -, hlow, hup⟩ := I.placed hout
  have hend := payload_end_le I hout
  have hle := leftover_le c.core len
  have hleft : output + c.core.leftover len + 0 ≤
      m.session.st.pool + m.session.st.poolSize.toNat := by omega
  obtain ⟨f, n, c', regs, hn, hrun⟩ := ctrHw_long_ok P m c input output hlen (by omega)
  have I₁ : Memmgr.Inv P.env
      (m.withMem (m.session.st.mem.fill output (c.core.leftover len) f)).session bs :=
    inv_fill I f fun a h1 h2 => hout.usable h1 (by omega)
  have hbegun : Steady P bs m
      (m.withMem (m.session.st.mem.fill output (c.core.leftover len) f)) :=
    ⟨I₁, rfl, rfl, rfl, rfl⟩
  refine ⟨c', _, hrun, fun hoff => hbegun.trans
    (.of_byBus I₁ ((ByBus.posted _ _ _).trans (.runJob _ _ _ _)) fun q hq x h1 h2 => ?_)⟩
  by_cases hin : m.InPool x
  · have hpast := header_outside I hout (by omega) hq h1 h2 hin hoff
    rw [FpgaAes.roundedUp] at hpast
    refine runJob_mem_outside P.aes (d := output + c.core.leftover len) ?_ ?_ ?_ ?_
    · exact hlow.trans (Nat.le_add_right _ _)
    · rw [hn]
      show _ ≤ m.session.st.pool + 2 ^ 32
      omega
    · show m.phys output + UInt32.ofNat (c.core.leftover len) = _
      rw [← phys_add Pl.pool_pos.ne']
      exact (maps_lookup Pl.pool_pos.ne' (by omega) hleft).addr
    · rw [hn]
      omega
  · exact (ByBus.runJob P.aes _ _ _).mem_eq x hin

/-! ## Many calls -/

/-- The cipher has been made, and used in whatever way. -/
def FpgaAes.InUse (P : Platform) (c : FpgaAes) : Prop :=
  ∃ r key iv base ivLength mode c₀, fpgaAesNew r key base iv ivLength mode = some c₀ ∧
    Used P (fun _ _ => True) c₀ c

theorem FpgaAes.InUse.lastLocation_lt (h : c.InUse P) : c.lastLocation < 16 := by
  obtain ⟨r, key, iv, base, ivLength, mode, c₀, hnew, hused⟩ := h
  exact (hused.lastLocation_lt (by rw [(new_eq hnew).1]; decide)).1

/-- One action on the heap `bs` without operations of the allocator but those of the calls: a client
stores a byte where it may, somebody else uses the device, or a cipher makes a call that returns and
runs over no header. -/
inductive CallsStep (P : Platform) (bs : List Memmgr.Block) : Machine → Machine → Prop
  | store {m : Machine} {a : Nat} {v : UInt8} {S : Memmgr.Session}
      (h : Memmgr.Step P.env m.session (.store a v) S) : CallsStep P bs m { m with session := S }
  | device {m : Machine} (dark : UInt32 → UInt8) (regs : Reg → UInt32) (jobs : List Started) :
      CallsStep P bs m { m with dark, regs, jobs }
  | call {m m' : Machine} {c c' : FpgaAes} {input output len : Nat} {rc : Int} (hc : c.InUse P)
      (hin : m.session.Owns input len) (hout : m.session.Owns output len)
      (hoff : KeepsOff bs c output len)
      (h : aesEncryptCtrHw P c input len output (m.phys input) (m.phys output) m =
        .ok (rc, c') m') : CallsStep P bs m m'

/-- Any number of actions. -/
def CallsRun (P : Platform) (bs : List Memmgr.Block) : Machine → Machine → Prop :=
  Relation.ReflTransGen (CallsStep P bs)

/-- With two scratch blocks to be had every call returns. -/
theorem call_returns (I : Memmgr.Inv P.env m.session bs)
    (hf : 2 * m.session.st.poolSize.toNat + 2 ≤ P.fuel) (hspare : 2 ≤ Memmgr.spare bs)
    (hloc : c.lastLocation < 16) (hin : m.session.Owns input len)
    (hout : m.session.Owns output len) :
    ∃ c' m', aesEncryptCtrHw P c input len output (m.phys input) (m.phys output) m =
      .ok (cInt len, c') m' := by
  by_cases hlen : len - c.core.leftover len < 2 ^ 31
  · obtain ⟨c', m', -, hcall, -⟩ := ctrHw_returns I hf hlen hin hout hloc (Or.inr (Or.inr hspare))
    exact ⟨c', m', hcall⟩
  · obtain ⟨c', m', hcall, -⟩ := ctrHw_long (c := c) I (Nat.le_of_not_lt hlen) hout
    exact ⟨c', m', hcall⟩

/-- **Then a call leaves the heap as it was.** -/
theorem Steady.call (I : Memmgr.Inv P.env m.session bs)
    (hf : 2 * m.session.st.poolSize.toNat + 2 ≤ P.fuel) (hspare : 2 ≤ Memmgr.spare bs)
    (hloc : c.lastLocation < 16) (hin : m.session.Owns input len)
    (hout : m.session.Owns output len) (hoff : KeepsOff bs c output len)
    (hcall : aesEncryptCtrHw P c input len output (m.phys input) (m.phys output) m =
      .ok (rc, c') m') : Steady P bs m m' := by
  by_cases hlen : len - c.core.leftover len < 2 ^ 31
  · obtain ⟨c'', m'', js, hrun, S, -⟩ :=
      ctrHw_returns I hf hlen hin hout hloc (Or.inr (Or.inr hspare))
    obtain ⟨-, rfl⟩ := EStateM.Result.ok.inj (hrun.symm.trans hcall)
    have hrestores := ctrHw_restores I hf hlen hin hout hcall
    obtain ⟨I', hpos⟩ : Memmgr.Inv P.env m''.session bs ∧
        m''.session.st.poolFreePos = m.session.st.poolFreePos := by
      split at hrestores
      · exact hrestores
      · obtain ⟨bs', I', R⟩ := hrestores
        obtain ⟨rfl, hpos⟩ := R.same hspare
        exact ⟨I', hpos⟩
    exact ⟨I', S.live_eq, hpos, S.frame.pool_eq, S.frame.poolSize_eq⟩
  · obtain ⟨c'', m'', hrun, hsteady⟩ := ctrHw_long (c := c) I (Nat.le_of_not_lt hlen) hout
    obtain ⟨-, rfl⟩ := EStateM.Result.ok.inj (hrun.symm.trans hcall)
    exact hsteady (hoff.resolve_left hlen)

theorem Steady.step (I : Memmgr.Inv P.env m.session bs)
    (hf : 2 * m.session.st.poolSize.toNat + 2 ≤ P.fuel) (hspare : 2 ≤ Memmgr.spare bs)
    (h : CallsStep P bs m m') : Steady P bs m m' := by
  cases h with
  | store hstore =>
    cases hstore with
    | store ha => exact ⟨I.store _ ha, rfl, rfl, rfl, rfl⟩
  | device => exact ⟨I, rfl, rfl, rfl, rfl⟩
  | call hc hin hout hoff hcall =>
    exact .call I hf hspare hc.lastLocation_lt hin hout hoff hcall

theorem Steady.run (I : Memmgr.Inv P.env m.session bs)
    (hf : 2 * m.session.st.poolSize.toNat + 2 ≤ P.fuel) (hspare : 2 ≤ Memmgr.spare bs)
    (h : CallsRun P bs m m') : Steady P bs m m' := by
  induction h with
  | refl => exact .refl I
  | tail _ hstep ih =>
    exact ih.trans (.step ih.inv (by rwa [ih.poolSize_eq]) hspare hstep)

/-- The pool is used up to the same place, the same blocks are live, and the same quanta are
free. -/
structure SameHeap (e : Env) (S S' : Memmgr.Session) : Prop where
  poolFreePos_eq : S'.st.poolFreePos = S.st.poolFreePos
  live_eq : S'.live = S.live
  freeQuanta_eq : Memmgr.freeQuanta e S'.st = Memmgr.freeQuanta e S.st

theorem Steady.sameHeap (I : Memmgr.Inv P.env m.session bs) (hbs : bs ≠ [])
    (h : Steady P bs m m') : SameHeap P.env m.session m'.session := by
  obtain ⟨Pl, L⟩ := I.layout (Or.inl hbs)
  obtain ⟨Pl', L'⟩ := h.inv.layout (Or.inl hbs)
  exact ⟨h.pos_eq, h.live_eq, L.freeQuanta_eq Pl Pl' L'⟩

/-- **No heap creep.**  After a call with a partial last block has returned, which it does not if it
is refused one of its two scratch blocks, calls of any lengths by any ciphers leave the heap as it
is, as long as they run over no header, and every further call returns. -/
theorem no_creep {s : Memmgr.State} {buffer : Nat} {length baseAddress : UInt32}
    (hs : s.session = 0) (hp : buffer = 0 ∨ Memmgr.Placed P.env buffer length)
    (hS : Memmgr.Reachable P.env s buffer length baseAddress m.session)
    (hf : 2 * length.toNat + 2 ≤ P.fuel) (hc : c.InUse P) (hin : m.session.Owns input len)
    (hout : m.session.Owns output len) (hlen : len - c.core.leftover len < 2 ^ 31)
    (hragged : c.core.extraBytes len ≠ 0)
    (hcall : aesEncryptCtrHw P c input len output (m.phys input) (m.phys output) m =
      .ok (rc, c') m') :
    ∃ bs, Memmgr.WellFormed P.env m'.session bs ∧ ∀ m'', CallsRun P bs m' m'' →
      Memmgr.WellFormed P.env m''.session bs ∧ SameHeap P.env m'.session m''.session ∧
      ∀ c input len output, c.InUse P → m''.session.Owns input len → m''.session.Owns output len →
        ∃ c' m₃, aesEncryptCtrHw P c input len output (m''.phys input) (m''.phys output) m'' =
          .ok (cInt len, c') m₃ := by
  obtain ⟨bs₀, I₀⟩ := hS.inv hs hp
  have hsize := hS.poolSize_eq hs hp
  have hf₀ : 2 * m.session.st.poolSize.toNat + 2 ≤ P.fuel := by rwa [hsize]
  have hserves : Memmgr.Serves P.env m.session.st bs₀ 2 := by
    by_contra hnot
    exact (ctrHw_stops I₀ hf₀ hlen hin hout hragged hnot).not_ok hcall
  obtain ⟨_, m₁, js, hrun, S, -⟩ :=
    ctrHw_returns I₀ hf₀ hlen hin hout hc.lastLocation_lt (Or.inr hserves)
  obtain ⟨-, rfl⟩ := EStateM.Result.ok.inj (hrun.symm.trans hcall)
  have hrestores := ctrHw_restores I₀ hf₀ hlen hin hout hcall
  rw [if_neg hragged] at hrestores
  obtain ⟨bs, I, R⟩ := hrestores
  have hspare := R.more
  have hf₁ : 2 * m₁.session.st.poolSize.toNat + 2 ≤ P.fuel := by rwa [S.frame.poolSize_eq]
  have hne : bs ≠ [] := by
    rintro rfl
    exact absurd hspare (by decide)
  refine ⟨bs, I.wellFormed, fun m₂ hcalls => ?_⟩
  have h := Steady.run I hf₁ hspare hcalls
  exact ⟨h.inv.wellFormed, h.sameHeap I hne, fun c input len output hc hin hout =>
    call_returns h.inv (by rwa [h.poolSize_eq]) hspare hc.lastLocation_lt hin hout⟩

/-- A thousand bytes, and a hundred more. -/
theorem no_creep_zynq : ∃ S m₁ m₂ c₁ c₂ rc,
    Memmgr.Reachable Env.zynq (Memmgr.State.loaded fun _ => 0) 0x100000 0x800000 0x1f410000 S ∧
      aesEncryptCtrHw (Platform.zynq benchAes) benchCipher 0x100014 1000 0x20002c
        ((Machine.on S).phys 0x100014) ((Machine.on S).phys 0x20002c) (Machine.on S) =
          .ok (1000, c₁) m₁ ∧
      aesEncryptCtrHw (Platform.zynq benchAes) c₁ 0x100014 100 0x20002c (m₁.phys 0x100014)
        (m₁.phys 0x20002c) m₁ = .ok (rc, c₂) m₂ ∧
      SameHeap Env.zynq m₁.session m₂.session := by
  obtain ⟨S, hS, hlive, hroomy, -⟩ := bench_reachable
  obtain ⟨bs, I⟩ := hS.inv rfl (Or.inr zynq_placed_shared)
  obtain ⟨c₁, m₁, js, hcall₁, hin, hout, -, S₁, -⟩ := bench_call benchAes
    (m := Machine.on S) (c := benchCipher) I hlive
    (hS.poolSize_eq rfl (Or.inr zynq_placed_shared)) (by decide) 0 1000 (by decide) (Or.inr hroomy)
  have hbench : benchCipher.InUse (Platform.zynq benchAes) :=
    ⟨_, _, _, _, _, _, benchCipher, benchCipher_new, .refl⟩
  have hused : c₁.InUse (Platform.zynq benchAes) :=
    ⟨_, _, _, _, _, _, benchCipher, benchCipher_new, .single ⟨1000, trivial, .ctrHw hcall₁⟩⟩
  obtain ⟨bs₁, -, h⟩ := no_creep (m := Machine.on S) rfl (Or.inr zynq_placed_shared) hS
    (zynq_fuel _)
    hbench hin hout (by decide) (by decide) hcall₁
  have hin₁ : m₁.session.Owns 0x100014 100 :=
    ⟨0x100014, 0x100000, by simp [S₁.live_eq, Machine.on, hlive], by decide, by decide⟩
  have hout₁ : m₁.session.Owns 0x20002c 100 :=
    ⟨0x20002c, 0x100000, by simp [S₁.live_eq, Machine.on, hlive], by decide, by decide⟩
  obtain ⟨c₂, m₂, hcall₂⟩ := (h m₁ .refl).2.2 c₁ 0x100014 100 0x20002c hused hin₁ hout₁
  have hstep : CallsStep (Platform.zynq benchAes) bs₁ m₁ m₂ :=
    .call hused hin₁ hout₁ (Or.inl (Nat.sub_lt_of_lt (by decide))) hcall₂
  exact ⟨S, m₁, m₂, c₁, c₂, _, hS, hcall₁, hcall₂, (h m₂ (.single hstep)).2.1⟩

/-! ## A header that is run over -/

/-- A 64-bit target that has `base` at the address `0x2000`. -/
def Env.zynqmp : Env := ⟨.lp64, 0x2000, by decide, by decide⟩

/-- That target with a block cipher that makes the same block of every block. -/
def Platform.zynqmp : Platform :=
  ⟨Env.zynqmp, fun _ _ _ => 0xff, 0x100002002, ⟨4096, 3, none, true⟩⟩

theorem zynqmp_placed : Memmgr.Placed Env.zynqmp 0x100000 0x80001000 where
  pool_pos := by decide
  fits := by decide
  beside := by decide
  room := by decide

/-- The machine of a client that holds a little more than 2 GB. -/
def overrunBench (s : Memmgr.State) : Machine := Machine.on ⟨s, [(0x100020, 0x80000020)]⟩

/-- Its machine after a call for one byte. -/
def overrunBegun (s : Memmgr.State) : Machine :=
  final (aesEncryptCtrHw Platform.zynqmp benchCipher 0x100020 1 0x100020
    ((overrunBench s).phys 0x100020) ((overrunBench s).phys 0x100020)) (overrunBench s)

/-- There is room for scratch blocks, and after the call the free block behind the buffer, of 16
quanta, is the last of the heap, and the roving pointer is at it. -/
def OverrunReady (s : Memmgr.State) : Prop :=
  Memmgr.Roomy Env.zynqmp s 2 ∧
    (s.poolSize = 0x80001000 ∧ s.pool = 0x100000 ∧ s.baseAddress = 0x1f410000) ∧
    (overrunBegun s).session.st.freep = 0x80100040 ∧
    (overrunBegun s).session.st.poolFreePos = 0x80000240 ∧
    (overrunBegun s).session.st.mem 0x80100049 = 0

instance (s : Memmgr.State) : Decidable (OverrunReady s) :=
  inferInstanceAs (Decidable (_ ∧ _ ∧ _ ∧ _ ∧ _))

theorem overrun_reachable : ∃ s,
    Memmgr.Reachable Env.zynqmp (Memmgr.State.loaded fun _ => 0) 0x100000 0x80001000 0x1f410000
      ⟨s, [(0x100020, 0x80000020)]⟩ ∧ OverrunReady s := by
  have h : ((Memmgr.memmgrAlloc Env.zynqmp 100 (Memmgr.memmgrInit Env.zynqmp
      (Memmgr.State.loaded fun _ => 0) 0x100000 0x80001000 0x1f410000) 0x80000020).map fun r =>
        (r.1, decide (OverrunReady r.2))) = some (0x100020, true) := by
    decide +kernel
  simp only [Option.map_eq_some_iff, Prod.mk.injEq, decide_eq_true_eq] at h
  obtain ⟨⟨p, s⟩, h₁, rfl, hready⟩ := h
  have hstep := Memmgr.Step.alloc (S := Memmgr.Session.opened Env.zynqmp
    (Memmgr.State.loaded fun _ => 0) 0x100000 0x80001000 0x1f410000) (by decide) h₁
  exact ⟨s, .single ⟨_, trivial, hstep⟩, hready⟩

/-- The long call inverts the second byte of the size of the block behind the buffer. -/
theorem overrun_byte (hpool : m.session.st.pool = 0x100000)
    (hsize : m.session.st.poolSize = 0x80001000) (hbase : m.session.st.baseAddress = 0x1f410000)
    (hleft : c.core.leftover 0x80000020 = 15) (hzero : m.session.st.mem 0x80100049 = 0) :
    ∃ c' m', aesEncryptCtrHw Platform.zynqmp c 0x100020 0x80000020 0x100020 (m.phys 0x100020)
        (m.phys 0x100020) m = .ok (cInt 0x80000020, c') m' ∧
      m'.session.st.freep = m.session.st.freep ∧ m'.session.st.mem 0x80100049 = 0xff := by
  have hlen : 2 ^ 31 ≤ 0x80000020 - c.core.leftover 0x80000020 := by
    rw [hleft]
    decide
  obtain ⟨f, n, c', regs, hn, hrun⟩ :=
    ctrHw_long_ok Platform.zynqmp m c 0x100020 0x100020 hlen (by decide)
  have hcount : (dataLength n).toNat / 16 = 0x8000001 + 1 := by rw [hn, hleft]
  rw [hcount, hleft] at hrun
  generalize hj : jobFor _ _ _ _ _ = j at hrun
  have hdest : j.dest = 0x1f41002f := by
    rw [← hj]
    show m.phys 0x100020 + UInt32.ofNat 15 = _
    rw [phys, Memmgr.lookupBufferPhysicalAddress, hpool, hbase]
    decide
  have hsource : j.source = j.dest := by rw [← hj]; rfl
  have hmode : j.mode = 2 := by
    rw [← hj]
    exact (by decide : UInt32.ofInt 2 = 2)
  generalize hm₁ : (m.withMem (m.session.st.mem.fill 0x100020 15 f)).posted regs j = m₁ at hrun
  have hbyte : m₁.session.st.mem 0x80100049 = 0 := by
    rw [← hm₁]
    show m.session.st.mem.fill 0x100020 15 f 0x80100049 = 0
    rw [Mem.fill_of_outside _ f (by decide), hzero]
  have hinPool : m₁.InPool 0x80100049 := by
    rw [← hm₁]
    show m.InPool _
    rw [InPool, hpool, hsize]
    decide
  have himage : m₁.session.st.baseAddress + UInt32.ofNat (0x80100049 - m₁.session.st.pool) =
      j.dest + UInt32.ofNat (16 * 0x8000001 + 10) := by
    rw [hdest, ← hm₁]
    show m.session.st.baseAddress + UInt32.ofNat (0x80100049 - m.session.st.pool) = _
    rw [hpool, hbase]
    decide
  have hby := ByBus.runJob Platform.zynqmp.aes j m₁ (0x8000001 + 1)
  refine ⟨c', _, hrun, ?_, ?_⟩
  · rw [hby.freep_eq, ← hm₁]
    rfl
  · have hread := busRead_image hinPool
    rw [hby.mem_image hinPool, himage, runJob_read_last _ hsource (by decide) (by decide),
      Job.block, if_pos hmode]
    rw [himage, hbyte] at hread
    have hblock : m₁.busBlock (j.dest + UInt32.ofNat (16 * 0x8000001)) 10 = 0 := by
      rw [busBlock, add_ofNat_add]
      exact hread
    rw [Block.at_eq (j := 10) (by decide)]
    show m₁.busBlock (j.dest + UInt32.ofNat (16 * 0x8000001)) 10 ^^^ 0xff = 0xff
    rw [hblock]
    rfl

/-- Then the block seems to have more than 16 quanta. -/
theorem overrun_size {s : Memmgr.State} (h : s.mem 0x80100049 = 0xff) :
    16 < s.size Env.zynqmp 0x80100040 := by
  have hread : s.size Env.zynqmp 0x80100040 = (s.mem 0x80100048).toNat +
      256 * ((s.mem 0x80100049).toNat + 256 * s.mem.readLE 6 0x8010004a) := rfl
  have hbyte : (s.mem 0x80100049).toNat = 255 := by rw [h]; rfl
  omega

/-- **A header is run over**: after a call for one byte, a call for as many bytes as there are
before the next header stores 15 more, because 15 bytes of the keystream block were left and the
length of the rest overflows. -/
theorem heap_overrun : ∃ s m₁ m₂ c₁ c₂ rc₁ rc₂,
    Memmgr.Reachable Env.zynqmp (Memmgr.State.loaded fun _ => 0) 0x100000 0x80001000 0x1f410000
        ⟨s, [(0x100020, 0x80000020)]⟩ ∧
      aesEncryptCtrHw Platform.zynqmp benchCipher 0x100020 1 0x100020
        ((overrunBench s).phys 0x100020) ((overrunBench s).phys 0x100020) (overrunBench s) =
          .ok (rc₁, c₁) m₁ ∧
      m₁.session.Owns 0x100020 0x80000020 ∧
      aesEncryptCtrHw Platform.zynqmp c₁ 0x100020 0x80000020 0x100020 (m₁.phys 0x100020)
        (m₁.phys 0x100020) m₁ = .ok (rc₂, c₂) m₂ ∧
      ¬SameHeap Env.zynqmp m₁.session m₂.session := by
  obtain ⟨s, hS, hroomy, ⟨hsize, hpool, hbase⟩, hfreep, hpos, hzero⟩ := overrun_reachable
  obtain ⟨bs, I⟩ := hS.inv rfl (Or.inr zynqmp_placed)
  have hlive : (0x100020, 0x80000020) ∈ (overrunBench s).session.live := List.mem_cons_self
  have hf : 2 * (overrunBench s).session.st.poolSize.toNat + 2 ≤ Platform.zynqmp.fuel := by
    rw [show (overrunBench s).session.st.poolSize = _ from hsize]
    exact (by decide : 2 * (0x80001000 : UInt32).toNat + 2 ≤ 0x100002002)
  have hown : (overrunBench s).session.Owns 0x100020 1 :=
    ⟨0x100020, 0x80000020, hlive, by decide, by decide⟩
  obtain ⟨c₁, m₁, js, hcall₁, S₁, -, hcore, -⟩ := ctrHw_returns (P := Platform.zynqmp)
    (m := overrunBench s) (c := benchCipher) I hf (by decide) hown hown (by decide)
    (Or.inr (Or.inl hroomy))
  have hbegun : overrunBegun s = m₁ := final_of_ok hcall₁
  rw [hbegun] at hfreep hpos hzero
  obtain ⟨bs₁, I₁⟩ := S₁.inv
  have hloc : c₁.core.lastLocation = 1 := by
    rw [hcore, Core.advance, if_neg (by decide)]
    decide
  have hleft : c₁.core.leftover 0x80000020 = 15 := by
    rw [Core.leftover, hloc]
    decide
  have hpool₁ := S₁.frame.pool_eq.trans hpool
  obtain ⟨c₂, m₂, hcall₂, hfreep₂, hbyte⟩ := overrun_byte hpool₁
    (S₁.frame.poolSize_eq.trans hsize) (S₁.frame.baseAddress_eq.trans hbase) hleft hzero
  refine ⟨s, m₁, m₂, c₁, c₂, _, _, hS, hcall₁, ?_, hcall₂, fun hsame => ?_⟩
  · exact ⟨0x100020, 0x80000020, by rw [S₁.live_eq]; exact hlive, le_rfl, le_rfl⟩
  -- a quantum behind the heap
  have hfree : 0x80100240 ∈ Memmgr.freeQuanta Env.zynqmp m₂.session.st := by
    refine ⟨by rw [hfreep₂, hfreep]; decide, 0x80100040, 16, ?_, overrun_size hbyte, rfl⟩
    rw [hfreep₂, hfreep]
  rw [hsame.freeQuanta_eq] at hfree
  obtain ⟨Pl, L⟩ := I₁.layout (Or.inr (by rw [hfreep]; decide))
  obtain ⟨b, hb, -, k, hk, hq⟩ := (L.mem_freeQuanta Pl).1 hfree
  have hend := (L.bounds hb).2.2
  have hhdr : Platform.zynqmp.env.hdr = 32 := rfl
  have hq' : 0x80100240 = b.addr + k * Platform.zynqmp.env.hdr := hq
  have hpool₂ : m₁.session.st.pool = 0x100000 := hpool₁
  rw [Memmgr.Block.bytes, hhdr, hpool₂, hpos] at hend
  rw [hhdr] at hq'
  omega

end Zedboard
