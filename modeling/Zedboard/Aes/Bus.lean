import Zedboard.Aes.Fpga

/-!
# Buffers on the bus

`Maps m a p n` says that the `n` bytes at the physical address `a` are those at the pointer `p`.
Then the bus reads and writes what the processor does, and a job from one such buffer to another
one is a `Mem.fill` (`runJob_eq`).  `lookupBufferPhysicalAddress` computes such addresses
(`maps_lookup`).

The last part is about any addresses, in the window or not: what the bus reads after it has written,
and after a job.
-/

set_option autoImplicit false

namespace Zedboard

/-! ## Addresses of the bus -/

theorem add_ofNat_add (a : UInt32) (k j : Nat) :
    a + UInt32.ofNat k + UInt32.ofNat j = a + UInt32.ofNat (k + j) := by
  rw [UInt32.add_assoc, ← UInt32.ofNat_add]

/-- How far one address lies behind another one. -/
theorem toNat_offset_sub (a : UInt32) {k j : Nat} (hj : j ≤ 2 ^ 32) :
    (a + UInt32.ofNat k - (a + UInt32.ofNat j)).toNat = (k + 2 ^ 32 - j) % 2 ^ 32 := by
  have ha := a.toNat_lt
  rw [UInt32.toNat_sub, UInt32.toNat_add, UInt32.toNat_add, UInt32.toNat_ofNat',
    UInt32.toNat_ofNat']
  omega

theorem toNat_offset (a : UInt32) {k : Nat} (hk : k < 2 ^ 32) :
    (a + UInt32.ofNat k - a).toNat = k := by
  rw [UInt32.add_comm, UInt32.add_sub_cancel, UInt32.toNat_ofNat', Nat.mod_eq_of_lt hk]

theorem toNat_sub_offset {a b : UInt32} {k : Nat} (hk : k ≤ (b - a).toNat) :
    (b - (a + UInt32.ofNat k)).toNat = (b - a).toNat - k := by
  have hb := b.toNat_lt
  have ha := a.toNat_lt
  rw [UInt32.toNat_sub] at hk ⊢
  rw [UInt32.toNat_sub, UInt32.toNat_add, UInt32.toNat_ofNat']
  omega

namespace Machine

variable {m : Machine} {a : UInt32} {p n k : Nat}

/-! ## Another memory -/

@[simp] theorem withMem_mem (m : Machine) (mem : Mem) : (m.withMem mem).session.st.mem = mem := rfl

@[simp] theorem withMem_live (m : Machine) (mem : Mem) :
    (m.withMem mem).session.live = m.session.live := rfl

@[simp] theorem withMem_withMem (m : Machine) (mem mem' : Mem) :
    (m.withMem mem).withMem mem' = m.withMem mem' := rfl

@[simp] theorem withMem_self (m : Machine) : m.withMem m.session.st.mem = m := rfl

@[simp] theorem withMem_jobs (m : Machine) (mem : Mem) : (m.withMem mem).jobs = m.jobs := rfl

/-! ## Physical addresses of the pool -/

/-- The `n` bytes at the physical address `a` are the `n` bytes of the pool at the pointer `p`. -/
structure Maps (m : Machine) (a : UInt32) (p n : Nat) : Prop where
  pool : m.session.st.pool ≠ 0
  lower : m.session.st.pool ≤ p
  upper : p + n ≤ m.session.st.pool + m.session.st.poolSize.toNat
  addr : a = m.session.st.baseAddress + UInt32.ofNat (p - m.session.st.pool)

namespace Maps

theorem withMem (h : m.Maps a p n) (mem : Mem) : (m.withMem mem).Maps a p n :=
  ⟨h.pool, h.lower, h.upper, h.addr⟩

/-- A part of the buffer. -/
theorem part (h : m.Maps a p n) {j : Nat} (hk : k + j ≤ n) :
    m.Maps (a + UInt32.ofNat k) (p + k) j := by
  have h1 := h.lower
  have h2 := h.upper
  refine ⟨h.pool, by omega, by omega, ?_⟩
  rw [h.addr, add_ofNat_add]
  congr 2
  omega

theorem offset_eq (h : m.Maps a p n) (hn : 0 < n) : m.offset a = p - m.session.st.pool := by
  have h1 := h.upper
  have h2 := m.session.st.poolSize.toNat_lt
  rw [offset, h.addr, toNat_offset _ (by omega)]

theorem inWindow (h : m.Maps a p n) (hn : 0 < n) : m.inWindow a = true := by
  have h1 := h.upper
  have h2 := h.lower
  rw [Machine.inWindow, h.offset_eq hn]
  simp only [Bool.and_eq_true, decide_eq_true_eq]
  exact ⟨h.pool, by omega⟩

/-- The bus reads what the processor reads. -/
theorem read (h : m.Maps a p n) (hk : k < n) :
    m.busRead (a + UInt32.ofNat k) = m.session.st.mem (p + k) := by
  have h1 := h.part (k := k) (j := 1) (by omega)
  have h2 := h.lower
  rw [busRead, if_pos (h1.inWindow Nat.one_pos), h1.offset_eq Nat.one_pos]
  congr 1
  omega

theorem block (h : m.Maps a p n) (hn : 16 ≤ n) :
    m.busBlock a = fun i : Fin 16 => m.session.st.mem (p + i) := by
  funext i
  rw [busBlock, h.read (by omega)]

/-- The bus writes what the processor writes. -/
theorem fill (h : m.Maps a p n) (f : Nat → UInt8) :
    m.busFill a n f = m.withMem (m.session.st.mem.fill p n f) := by
  have hlow := h.lower
  have hup := h.upper
  have hsize := m.session.st.poolSize.toNat_lt
  -- where a byte of the pool lies relative to `a`
  have hdist : ∀ x, m.session.st.pool ≤ x →
      x < m.session.st.pool + m.session.st.poolSize.toNat →
      (m.session.st.baseAddress + UInt32.ofNat (x - m.session.st.pool) - a).toNat =
        (x + 2 ^ 32 - p) % 2 ^ 32 := by
    intro x h1 h2
    rw [h.addr, toNat_offset_sub _ (by omega)]
    omega
  have hmem : (fun x =>
      let p' := m.session.st.baseAddress + UInt32.ofNat (x - m.session.st.pool)
      if m.session.st.pool ≠ 0 ∧ m.session.st.pool ≤ x ∧
          x < m.session.st.pool + m.session.st.poolSize.toNat ∧ (p' - a).toNat < n then
        f (p' - a).toNat
      else m.session.st.mem x) = m.session.st.mem.fill p n f := by
    funext x
    dsimp only
    by_cases hx : p ≤ x ∧ x < p + n
    · have hd := hdist x (by omega) (by omega)
      have hd' : (x + 2 ^ 32 - p) % 2 ^ 32 = x - p := by omega
      rw [hd, hd', if_pos ⟨h.pool, by omega, by omega, by omega⟩, Mem.fill, if_pos hx]
    · rw [Mem.fill_of_outside _ _ (by omega), if_neg]
      rintro ⟨-, h1, h2, h3⟩
      rw [hdist x h1 h2] at h3
      omega
  have hdark : (fun q => if ¬m.inWindow q ∧ (q - a).toNat < n then f (q - a).toNat else m.dark q) =
      m.dark := by
    funext q
    refine if_neg ?_
    rintro ⟨h1, h2⟩
    refine h1 ?_
    have hq : a + UInt32.ofNat (q - a).toNat = q := by
      rw [UInt32.ofNat_toNat, UInt32.add_comm, UInt32.sub_add_cancel]
    have h3 := (h.part (k := (q - a).toNat) (j := 1) (by omega)).inWindow Nat.one_pos
    rwa [hq] at h3
  rw [busFill, hmem, hdark]
  rfl

end Maps

/-- **`lookupBufferPhysicalAddress` is right** for every pointer into the pool. -/
theorem maps_lookup (hpool : m.session.st.pool ≠ 0) (hlow : m.session.st.pool ≤ p)
    (hup : p + n ≤ m.session.st.pool + m.session.st.poolSize.toNat) :
    m.Maps (Memmgr.lookupBufferPhysicalAddress m.session.st p) p n := by
  refine ⟨hpool, hlow, hup, ?_⟩
  rw [Memmgr.lookupBufferPhysicalAddress, if_neg hpool, UInt32.ofNat_sub hlow]

/-! ## Jobs between buffers of the pool -/

/-- What a job of `n` blocks stores, for a source at the pointer `p`. -/
def jobBytes (aes : Block → Block → Block) (j : Job) (mem : Mem) (p i : Nat) : UInt8 :=
  (j.block aes (i / 16) fun t => mem (p + i / 16 * 16 + t)).at i

/-- **A job between two buffers of the pool** that do not overlap. -/
theorem runJob_eq (aes : Block → Block → Block) {j : Job} {q : Nat}
    (hs : m.Maps j.source p (16 * n))
    (hd : m.Maps j.dest q (16 * n)) (hpq : p + 16 * n ≤ q ∨ q + 16 * n ≤ p) : ∀ {k : Nat}, k ≤ n →
    runJob aes j k m =
      m.withMem (m.session.st.mem.fill q (16 * k) (jobBytes aes j m.session.st.mem p))
  | 0, _ => by rw [runJob, Nat.mul_zero, Mem.fill_zero, withMem_self]
  | k + 1, hk => by
    have ih := runJob_eq aes hs hd hpq (k := k) (by omega)
    have hs' := (hs.part (k := 16 * k) (j := 16) (by omega)).withMem
      (m.session.st.mem.fill q (16 * k) (jobBytes aes j m.session.st.mem p))
    have hd' := (hd.part (k := 16 * k) (j := 16) (by omega)).withMem
      (m.session.st.mem.fill q (16 * k) (jobBytes aes j m.session.st.mem p))
    -- the source has not been touched
    have hsrc : (fun i : Fin 16 => (m.session.st.mem.fill q (16 * k)
        (jobBytes aes j m.session.st.mem p)) (p + 16 * k + i)) =
        fun i : Fin 16 => m.session.st.mem (p + 16 * k + i) := by
      funext i
      exact Mem.fill_of_outside _ _ (by omega)
    rw [runJob, ih]
    rw [hs'.block le_rfl, hd'.fill, withMem_mem, withMem_withMem, hsrc, Nat.mul_succ,
      Mem.fill_append]
    congr 1
    refine Mem.fill_congr _ fun i hi => ?_
    split
    · rfl
    · have h1 : i / 16 = k := by omega
      have h2 : k * 16 = 16 * k := Nat.mul_comm _ _
      have h3 : (i - 16 * k) % 16 = i % 16 := by omega
      simp only [jobBytes, Block.at, h1, h2, h3]

/-! ## Any addresses -/

/-- The pointer points into the pool. -/
def InPool (m : Machine) (x : Nat) : Prop :=
  m.session.st.pool ≠ 0 ∧ m.session.st.pool ≤ x ∧
    x < m.session.st.pool + m.session.st.poolSize.toNat

/-- Only the bus has been at work: no variable has changed, and no memory but the pool. -/
structure ByBus (m m' : Machine) : Prop where
  session_eq : m'.session = (m.withMem m'.session.st.mem).session
  mem_eq : ∀ x, ¬m.InPool x → m'.session.st.mem x = m.session.st.mem x

namespace ByBus

variable {m' m'' : Machine}

theorem refl (m : Machine) : ByBus m m := ⟨rfl, fun _ _ => rfl⟩

theorem trans (h : ByBus m m') (h' : ByBus m' m'') : ByBus m m'' := by
  refine ⟨?_, fun x hx => (h'.mem_eq x ?_).trans (h.mem_eq x hx)⟩
  · rw [h'.session_eq, withMem, h.session_eq]
    rfl
  · rw [InPool, h.session_eq]
    exact hx

theorem fill (m : Machine) (a : UInt32) (n : Nat) (f : Nat → UInt8) :
    ByBus m (m.busFill a n f) := by
  refine ⟨rfl, fun x hx => if_neg ?_⟩
  rintro ⟨h1, h2, h3, -⟩
  exact hx ⟨h1, h2, h3⟩

theorem runJob (aes : Block → Block → Block) (j : Job) (m : Machine) (n : Nat) :
    ByBus m (runJob aes j n m) := by
  induction n with
  | zero => exact refl m
  | succ n ih => exact ih.trans (fill _ _ _ _)

end ByBus

/-- What the bus reads at the image of a byte of the pool. -/
theorem busRead_image {x : Nat} (h : m.InPool x) :
    m.busRead (m.session.st.baseAddress + UInt32.ofNat (x - m.session.st.pool)) =
      m.session.st.mem x := by
  obtain ⟨h1, h2, h3⟩ := h
  have hmaps : m.Maps (m.session.st.baseAddress + UInt32.ofNat (x - m.session.st.pool)) x 1 :=
    ⟨h1, h2, h3, rfl⟩
  have hread := hmaps.read (k := 0) Nat.one_pos
  simpa using hread

theorem ByBus.mem_image {m' : Machine} (h : ByBus m m') {x : Nat} (hx : m.InPool x) :
    m'.session.st.mem x =
      m'.busRead (m.session.st.baseAddress + UInt32.ofNat (x - m.session.st.pool)) := by
  have hx' : m'.InPool x := by
    rw [InPool, h.session_eq]
    exact hx
  rw [← busRead_image hx', h.session_eq]
  rfl

/-- What the processor reads in the pool after the bus has written. -/
theorem busFill_mem (a : UInt32) (n : Nat) (f : Nat → UInt8) {x : Nat} (h : m.InPool x) :
    (m.busFill a n f).session.st.mem x =
      let b := m.session.st.baseAddress + UInt32.ofNat (x - m.session.st.pool)
      if (b - a).toNat < n then f (b - a).toNat else m.session.st.mem x := by
  obtain ⟨h1, h2, h3⟩ := h
  exact if_congr (by simp [h1, h2, h3]) rfl rfl

/-- The bus reads what it has written. -/
theorem busRead_busFill (m : Machine) (a b : UInt32) (n : Nat) (f : Nat → UInt8) :
    (m.busFill a n f).busRead b = if (b - a).toNat < n then f (b - a).toNat else m.busRead b := by
  have hwindow : (m.busFill a n f).inWindow b = m.inWindow b := rfl
  rw [busRead, hwindow, busRead]
  by_cases h : m.inWindow b = true
  · rw [if_pos h, if_pos h]
    have hb : m.session.st.baseAddress + UInt32.ofNat (m.session.st.pool + m.offset b -
        m.session.st.pool) = b := by
      rw [Nat.add_sub_cancel_left, offset, UInt32.ofNat_toNat, UInt32.add_comm,
        UInt32.sub_add_cancel]
    rw [Machine.inWindow, Bool.and_eq_true, decide_eq_true_eq, decide_eq_true_eq] at h
    by_cases hn : (b - a).toNat < n
    · rw [if_pos hn]
      have hn' : (m.session.st.baseAddress + UInt32.ofNat (m.session.st.pool + m.offset b -
          m.session.st.pool) - a).toNat < n := by rwa [hb]
      exact (if_pos ⟨h.1, Nat.le_add_right _ _, Nat.add_lt_add_left h.2 _, hn'⟩).trans
        (congrArg (fun p : UInt32 => f (p - a).toNat) hb)
    · rw [if_neg hn]
      refine if_neg ?_
      rintro ⟨-, -, -, h'⟩
      exact hn (hb ▸ h')
  · rw [if_neg h, if_neg h]
    show (if ¬m.inWindow b ∧ _ then _ else _) = _
    exact if_congr (and_iff_right h) rfl rfl

/-- A job leaves what is not in its destination. -/
theorem runJob_read_far (aes : Block → Block → Block) {j : Job} {b : UInt32} :
    16 * n ≤ (b - j.dest).toNat → (runJob aes j n m).busRead b = m.busRead b := by
  induction n with
  | zero => exact fun _ => rfl
  | succ n ih =>
    intro h
    rw [runJob, busRead_busFill, if_neg, ih (by omega)]
    rw [toNat_sub_offset (by omega)]
    omega

/-- A job leaves the bytes of the pool whose images are not in its destination. -/
theorem runJob_mem_far (aes : Block → Block → Block) {j : Job} {x : Nat}
    (h : m.InPool x → 16 * n ≤
      (m.session.st.baseAddress + UInt32.ofNat (x - m.session.st.pool) - j.dest).toNat) :
    (runJob aes j n m).session.st.mem x = m.session.st.mem x := by
  have hby := ByBus.runJob aes j m n
  by_cases hx : m.InPool x
  · rw [hby.mem_image hx, runJob_read_far aes (h hx), busRead_image hx]
  · exact hby.mem_eq x hx

/-- In particular those before and behind the buffer it stores into, which may end behind the pool
but not behind the bus. -/
theorem runJob_mem_outside (aes : Block → Block → Block) {j : Job} {d x : Nat}
    (hlow : m.session.st.pool ≤ d) (hend : d + 16 * n ≤ m.session.st.pool + 2 ^ 32)
    (hdest : j.dest = m.session.st.baseAddress + UInt32.ofNat (d - m.session.st.pool))
    (hx : x < d ∨ d + 16 * n ≤ x) :
    (runJob aes j n m).session.st.mem x = m.session.st.mem x := by
  refine runJob_mem_far aes fun hpool => ?_
  obtain ⟨-, h1, h2⟩ := hpool
  have hsize := m.session.st.poolSize.toNat_lt
  rw [hdest, toNat_offset_sub _ (by omega)]
  omega

/-- What the last block of a job makes of its destination when that is its source. -/
theorem runJob_read_last (aes : Block → Block → Block) {j : Job} {i : Nat}
    (hsource : j.source = j.dest) (hn : 16 * (n + 1) ≤ 2 ^ 32) (hi : i < 16) :
    (runJob aes j (n + 1) m).busRead (j.dest + UInt32.ofNat (16 * n + i)) =
      (j.block aes n (m.busBlock (j.dest + UInt32.ofNat (16 * n)))).at i := by
  have hblock : (runJob aes j n m).busBlock (j.dest + UInt32.ofNat (16 * n)) =
      m.busBlock (j.dest + UInt32.ofNat (16 * n)) := by
    funext k
    refine runJob_read_far aes ?_
    rw [add_ofNat_add, toNat_offset _ (by omega)]
    omega
  have hdist : (16 * n + i + 2 ^ 32 - 16 * n) % 2 ^ 32 = i := by omega
  rw [runJob, busRead_busFill, toNat_offset_sub _ (by omega), hdist, if_pos hi, hsource, hblock]

/-- **What a job leaves in its destination**, when that is apart from its source. -/
theorem runJob_read_near (aes : Block → Block → Block) {j : Job} (hn : 16 * n ≤ 2 ^ 32)
    (hsrc : ∀ t, t < 16 * n → 16 * n ≤ (j.source + UInt32.ofNat t - j.dest).toNat) : ∀ {k t : Nat},
    k ≤ n → t < 16 * k → (runJob aes j k m).busRead (j.dest + UInt32.ofNat t) =
      (j.block aes (t / 16) (m.busBlock (j.source + UInt32.ofNat (16 * (t / 16))))).at t
  | 0, _, _, ht => absurd ht (by omega)
  | k + 1, t, hk, ht => by
    rw [runJob, busRead_busFill, toNat_offset_sub _ (by omega)]
    by_cases hlast : 16 * k ≤ t
    · have hblock : (runJob aes j k m).busBlock (j.source + UInt32.ofNat (16 * k)) =
          m.busBlock (j.source + UInt32.ofNat (16 * k)) := by
        funext i
        refine runJob_read_far aes ?_
        rw [add_ofNat_add]
        exact Nat.le_trans (by omega) (hsrc (16 * k + i) (by omega))
      have hdiv : t / 16 = k := by omega
      have hoff : (t + 2 ^ 32 - 16 * k) % 2 ^ 32 = t - 16 * k := by omega
      rw [hoff, if_pos (by omega), hblock, hdiv, Block.at, Block.at]
      congr 2
      omega
    · rw [if_neg (by omega), runJob_read_near aes hn hsrc (by omega) (by omega)]

end Machine
end Zedboard
