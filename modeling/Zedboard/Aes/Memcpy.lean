import Zedboard.Aes.Stream

/-!
# The memcpy path

`Aes_encrypt_memcpy` copies its input to the beginning of the shared memory, has the core encipher
it block by block to the bytes behind it, and copies the result back (`memcpy_eq`).

The shared memory of a cipher that `fpga_aes_new_short_16` makes is also the pool of a session that
`memmgr_init_shared_short` opens, and the function allocates nothing there.  So a call overwrites
the beginning of the pool, unless it does nothing or there is no block yet (`memcpy_frame`).
-/

set_option autoImplicit false

namespace Zedboard

open Machine Prog

variable {P : Platform} {m m' : Machine} {c : FpgaAes} {input output len : Nat}

/-- What the call for `len` bytes gets when it asks for the shared memory. -/
def Platform.area (P : Platform) (base : UInt32) (len : Nat) : Option SharedMemory :=
  (getSharedMemoryArea P.os base.toUInt64 (UInt32.ofNat (len * 3))).1

/-- If it gets an area, the input and the output fit into it. -/
def Platform.Fits (P : Platform) (base : UInt32) (len : Nat) : Prop :=
  ∀ mem, P.area base len = some mem → mem.offset.toNat + 2 * len ≤ mem.length.toNat

/-- Without an area the call does nothing. -/
theorem memcpy_unmapped (h : P.area c.sharedMemBase len = none) :
    aesEncryptMemcpy P c output input len m = .ok (-1, c) m := by
  rw [Platform.area] at h
  rw [aesEncryptMemcpy, h]
  rfl

/-- The job of a call. -/
def FpgaAes.memcpyJob (c : FpgaAes) (len : Nat) : Job :=
  jobFor c len c.sharedMemBase (c.sharedMemBase + UInt32.ofNat len) 0

/-- **The job of a call**, after the bytes `f` have been copied to the beginning of the area: they
are still there, their blocks are behind them, enciphered, and the rest is as it was. -/
theorem area_job (hup : c.Updates) (m : Machine) (f : Nat → UInt8) (len : Nat)
    (hlen : 2 * len < 2 ^ 32) :
    ∃ m₁, aesEncrypt P c len c.sharedMemBase (c.sharedMemBase + UInt32.ofNat len) 0
        (m.busFill (c.sharedMemBase + UInt32.ofNat 0) len f) =
          .ok (c.afterEncrypt len c.sharedMemBase (c.sharedMemBase + UInt32.ofNat len) 0) m₁ ∧
      ByBus m m₁ ∧
      (∀ b, len + len / 16 * 16 ≤ (b - c.sharedMemBase).toNat → m₁.busRead b = m.busRead b) ∧
      (∀ k, k < len → m₁.busRead (c.sharedMemBase + UInt32.ofNat k) = f k) ∧
      ∀ k, k < len / 16 * 16 → m₁.busRead (c.sharedMemBase + UInt32.ofNat (len + k)) =
        (c.core.encipher P.aes fun i => f (k / 16 * 16 + i)).at k := by
  generalize hbase : c.sharedMemBase = base
  generalize hm₀ : m.busFill (base + UInt32.ofNat 0) len f = m₀
  obtain ⟨regs, hrun⟩ := aesEncrypt_eq (P := P) (m := m₀) hup len base (base + UInt32.ofNat len) 0
  have hblocks : (dataLength len).toNat / 16 = len / 16 := by
    rw [dataLength, UInt32.toNat_ofNat', Nat.mod_eq_of_lt (by omega),
      Nat.mul_div_cancel _ (by decide)]
  have hjob : jobFor c len base (base + UInt32.ofNat len) 0 = c.memcpyJob len := by
    rw [FpgaAes.memcpyJob, hbase]
  have hdest : (c.memcpyJob len).dest = base + UInt32.ofNat len := by rw [← hjob]; rfl
  have hsource : (c.memcpyJob len).source = base + UInt32.ofNat 0 := by
    rw [← hjob]
    exact (UInt32.add_zero base).symm
  rw [hblocks, hjob] at hrun
  generalize hm₁ : runJob P.aes (c.memcpyJob len) (len / 16) _ = m₁ at hrun
  -- what is at the beginning of the area before the job
  have hstaged : ∀ k, k < len →
      (m₀.posted regs (c.memcpyJob len)).busRead (base + UInt32.ofNat k) = f k := by
    intro k hk
    have hdist : (k + 2 ^ 32 - 0) % 2 ^ 32 = k := by omega
    rw [posted_busRead, ← hm₀, busRead_busFill, toNat_offset_sub _ (by omega), hdist, if_pos hk]
  have hapart : ∀ t, t < len →
      16 * (len / 16) ≤ (base + UInt32.ofNat t - (base + UInt32.ofNat len)).toNat := by
    intro t ht
    rw [toNat_offset_sub _ (by omega)]
    omega
  refine ⟨m₁, hrun, ?_, fun b hb => ?_, fun k hk => ?_, fun k hk => ?_⟩
  · rw [← hm₁, ← hm₀]
    exact ((ByBus.fill m _ len _).trans (.posted _ _ _)).trans (.runJob ..)
  · have h0 : base + UInt32.ofNat 0 = base := UInt32.add_zero base
    rw [← hm₁, runJob_read_far P.aes, posted_busRead, ← hm₀, busRead_busFill, h0,
      if_neg (by omega)]
    rw [hdest, toNat_sub_offset (by omega)]
    omega
  · rw [← hm₁, runJob_read_far P.aes, hstaged k hk]
    rw [hdest]
    exact hapart k hk
  · have hnear := runJob_read_near P.aes (j := c.memcpyJob len) (n := len / 16) (k := len / 16)
      (t := k) (m := m₀.posted regs (c.memcpyJob len)) (by omega)
      (fun t ht => by
        rw [hsource, hdest, add_ofNat_add, Nat.zero_add]
        exact hapart t (by omega)) le_rfl (by omega)
    have hblock : busBlock (m₀.posted regs (c.memcpyJob len))
        ((c.memcpyJob len).source + UInt32.ofNat (16 * (k / 16))) =
          fun i : Fin 16 => f (k / 16 * 16 + i) := by
      funext i
      rw [busBlock, hsource, add_ofNat_add, add_ofNat_add, hstaged _ (by omega)]
      congr 1
      omega
    rw [hdest, add_ofNat_add, hm₁, hblock] at hnear
    exact hnear

/-- **What a call does**: the bus makes `m₁` of the machine, where the input is at the beginning of
the area and its blocks, enciphered, behind it; then the result is copied to the output. -/
theorem memcpy_eq (hup : c.Updates) (harea : P.area c.sharedMemBase len ≠ none)
    (hfit : P.Fits c.sharedMemBase len) (m : Machine) (output input : Nat) :
    ∃ m₁ c', aesEncryptMemcpy P c output input len m =
        (if output = 0 ∧ len ≠ 0 then .error .segv m₁ else .ok (0, c')
          (m₁.withMem (m₁.session.st.mem.fill output len fun i =>
            m₁.busRead (c.sharedMemBase + UInt32.ofNat (len + i))))) ∧
      ByBus m m₁ ∧ 2 * len < 2 ^ 32 ∧
      (∀ b, len + len / 16 * 16 ≤ (b - c.sharedMemBase).toNat → m₁.busRead b = m.busRead b) ∧
      (∀ k, k < len →
        m₁.busRead (c.sharedMemBase + UInt32.ofNat k) = m.session.st.mem (input + k)) ∧
      ∀ k, k < len / 16 * 16 → m₁.busRead (c.sharedMemBase + UInt32.ofNat (len + k)) =
        (c.core.encipher P.aes fun i => m.session.st.mem (input + k / 16 * 16 + i)).at k := by
  obtain ⟨mem, hmem⟩ := Option.ne_none_iff_exists'.1 harea
  have hroom := hfit mem hmem
  have hlength := mem.length.toNat_lt
  obtain ⟨m₁, hjob, hby, hfar, hstaged, hnear⟩ :=
    area_job (P := P) hup m (fun i => m.session.st.mem (input + i)) len (by omega)
  have hget : (MonadState.get : Prog Machine) m = .ok m m := rfl
  have hin : copyToArea mem c.sharedMemBase 0 len (fun i => m.session.st.mem (input + i)) m =
      .ok () (m.busFill (c.sharedMemBase + UInt32.ofNat 0) len fun i =>
        m.session.st.mem (input + i)) := by
    rw [copyToArea, if_neg (by omega)]
  have hout : copyFromArea mem c.sharedMemBase len len output m₁ =
      (if output = 0 ∧ len ≠ 0 then .error .segv m₁ else .ok ()
        (m₁.withMem (m₁.session.st.mem.fill output len fun i =>
          m₁.busRead (c.sharedMemBase + UInt32.ofNat (len + i))))) := by
    rw [copyFromArea, if_neg (by omega), copyTo]
  refine ⟨m₁, c.afterEncrypt len c.sharedMemBase (c.sharedMemBase + UInt32.ofNat len) 0, ?_, hby,
    by omega, hfar, hstaged, fun k hk => ?_⟩
  · rw [Platform.area] at hmem
    rw [aesEncryptMemcpy, hmem]
    dsimp only
    rw [bind_of_ok hget, bind_of_ok hin, aesEncryptRun, bind_of_ok hjob]
    by_cases hnull : output = 0 ∧ len ≠ 0
    · rw [if_pos hnull] at hout ⊢
      rw [bind_of_error hout]
    · rw [if_neg hnull] at hout ⊢
      rw [bind_of_ok hout]
      rfl
  · rw [hnear k hk]
    simp only [Nat.add_assoc]

/-! ## The pool -/

/-- **`memmgr_init_shared_short` opens a session** whose pool is at the address of the shared
region. -/
theorem initSharedShort_eq {e : Env} {os : OsReply} {s s₁ : Memmgr.State} {log : List OsEvent}
    (hs : s.session = 0) (h : Memmgr.memmgrInitSharedShort e os s = (0, s₁, log)) :
    ∃ s', s'.session = 0 ∧ s₁ = Memmgr.memmgrInit e s' s₁.pool sharedSize baseAddressConst ∧
      s₁.poolSize = sharedSize := by
  have hinit : ∀ (s' : Memmgr.State) (p : Nat), s'.session = 0 →
      Memmgr.memmgrInitCheck e s' p sharedSize baseAddressConst = s₁ →
      s₁ = Memmgr.memmgrInit e s' s₁.pool sharedSize baseAddressConst ∧
      s₁.poolSize = sharedSize := by
    rintro s' p hs' rfl
    rw [Memmgr.memmgrInitCheck, if_pos hs']
    have hpool : (Memmgr.memmgrInit e s' p sharedSize baseAddressConst).pool = p ∧
        (Memmgr.memmgrInit e s' p sharedSize baseAddressConst).poolSize = sharedSize := by
      rw [Memmgr.memmgrInit, if_pos hs']
      exact ⟨rfl, rfl⟩
    rw [hpool.1]
    exact ⟨rfl, hpool.2⟩
  rw [Memmgr.memmgrInitSharedShort, Memmgr.memmgrInitCheckSharedMem, if_neg (by omega)] at h
  cases hshared : s.sharedMem with
  | some mem =>
    rw [hshared] at h
    simp only [Prod.mk.injEq] at h
    exact ⟨s, hs, hinit s mem.ptr hs h.2.1⟩
  | none =>
    rw [hshared] at h
    dsimp only at h
    split at h
    · simp only [Prod.mk.injEq] at h
      exact absurd h.1 (by decide)
    · rename_i mem log' _
      simp only [Prod.mk.injEq] at h
      exact ⟨{ s with sharedMem := some mem }, hs, hinit _ mem.ptr hs h.2.1⟩

/-- No header has changed and no byte of a payload, and the heap is well formed. -/
structure Undisturbed (e : Env) (bs : List Memmgr.Block) (S S' : Memmgr.Session) : Prop where
  headers : ∀ q ∈ e.base :: bs.map Memmgr.Block.addr, ∀ a, q ≤ a → a < q + e.hdr →
    S'.st.mem a = S.st.mem a
  payloads : ∀ a, S.Held a → S'.st.mem a = S.st.mem a
  live_eq : S'.live = S.live
  wellFormed : Memmgr.WellFormed e S' bs

/-- A call leaves the heap alone where the bus has written the same bytes again. -/
theorem undisturbed_of {bs : List Memmgr.Block} {m₁ : Machine} {n : Nat} (f : Nat → UInt8)
    (I : Memmgr.Inv P.env m.session bs) (hby : ByBus m m₁)
    (hheaders : ∀ q ∈ P.env.base :: bs.map Memmgr.Block.addr, ∀ a, q ≤ a → a < q + P.env.hdr →
      m₁.session.st.mem a = m.session.st.mem a)
    (hpayloads : ∀ a, m.session.Held a → m₁.session.st.mem a = m.session.st.mem a)
    (hout : ∀ a, output ≤ a → a < output + n → m.session.Foreign P.env a) :
    Undisturbed P.env bs m.session
      (m₁.withMem (m₁.session.st.mem.fill output n f)).session := by
  have hsession : (m₁.withMem (m₁.session.st.mem.fill output n f)).session =
      (m.withMem (m₁.session.st.mem.fill output n f)).session := by
    rw [withMem, hby.session_eq]
    rfl
  have hq : ∀ q ∈ P.env.base :: bs.map Memmgr.Block.addr, ∀ a, q ≤ a → a < q + P.env.hdr →
      m₁.session.st.mem.fill output n f a = m.session.st.mem a := by
    intro q hq a h1 h2
    rw [Mem.fill_of_outside, hheaders q hq a h1 h2]
    by_contra hx
    have h3 := I.outside (Or.inr (hout a (by omega) (by omega))) hq
    omega
  rw [hsession]
  refine ⟨hq, fun a ha => ?_, rfl, (I.of_mem hq).wellFormed⟩
  refine (Mem.fill_of_outside _ _ ?_).trans (hpayloads a ha)
  by_contra hx
  obtain ⟨-, hforeign⟩ := hout a (by omega) (by omega)
  obtain ⟨p, k, hlive, h1, h2⟩ := ha
  have h3 := I.payload hlive
  omega

/-- The machine with the bytes `f` in the input. -/
def Machine.given (m : Machine) (input len : Nat) (f : Nat → UInt8) : Machine :=
  m.withMem (m.session.st.mem.fill input len f)

@[simp] theorem given_mem (m : Machine) (input len : Nat) (f : Nat → UInt8) :
    (m.given input len f).session.st.mem = m.session.st.mem.fill input len f := rfl

/-- The machine in which a call ends. -/
theorem memcpy_final (hup : c.Updates) (harea : P.area c.sharedMemBase len ≠ none)
    (hfit : P.Fits c.sharedMemBase len) (m : Machine) (output input : Nat) :
    ∃ m₁ n f, final (aesEncryptMemcpy P c output input len) m =
        m₁.withMem (m₁.session.st.mem.fill output n f) ∧ n ≤ len ∧ ByBus m m₁ ∧
      (∀ b, 2 * len ≤ (b - c.sharedMemBase).toNat → m₁.busRead b = m.busRead b) ∧
      ∀ k, k < len →
        m₁.busRead (c.sharedMemBase + UInt32.ofNat k) = m.session.st.mem (input + k) := by
  obtain ⟨m₁, c', hrun, hby, -, hfar, hstaged, -⟩ := memcpy_eq hup harea hfit m output input
  by_cases hnull : output = 0 ∧ len ≠ 0
  · rw [if_pos hnull] at hrun
    refine ⟨m₁, 0, fun _ => 0, ?_, Nat.zero_le _, hby, fun b hb => hfar b (by omega), hstaged⟩
    rw [final_of_error hrun, Mem.fill_zero, withMem_self]
  · rw [if_neg hnull] at hrun
    exact ⟨m₁, len, _, final_of_ok hrun, le_rfl, hby, fun b hb => hfar b (by omega), hstaged⟩

/-- **The input goes over the beginning of the pool.** -/
theorem memcpy_overwrites (input output : Nat) (hup : c.Updates)
    (harea : P.area c.sharedMemBase len ≠ none) (hfit : P.Fits c.sharedMemBase len)
    (hbase : m.session.st.baseAddress = c.sharedMemBase) (hpool : m.session.st.pool ≠ 0) {k : Nat}
    (hk : k < len)
    (hsize : k < m.session.st.poolSize.toNat)
    (hout : ∀ a, output ≤ a → a < output + len → m.session.Foreign P.env a) :
    (final (aesEncryptMemcpy P c output input len) m).session.st.mem (m.session.st.pool + k) =
      m.session.st.mem (input + k) := by
  obtain ⟨m₁, n, g, hfinal, hn, hby, -, hstaged⟩ := memcpy_final hup harea hfit m output input
  have himage := hby.mem_image (x := m.session.st.pool + k) ⟨hpool, by omega, by omega⟩
  rw [Nat.add_sub_cancel_left, hbase, hstaged k hk] at himage
  rw [hfinal, withMem_mem, Mem.fill_of_outside, himage]
  by_contra hx
  have := (hout (m.session.st.pool + k) (by omega) (by omega)).2
  omega

/-- **A call with another first byte than that of the first header disturbs the heap.** -/
theorem memcpy_disturbs {b : Memmgr.Block} {bs : List Memmgr.Block}
    (I : Memmgr.Inv P.env m.session (b :: bs)) (hup : c.Updates)
    (harea : P.area c.sharedMemBase len ≠ none) (hfit : P.Fits c.sharedMemBase len)
    (hbase : m.session.st.baseAddress = c.sharedMemBase) (hlen : len ≠ 0)
    (hin : ∀ a, input ≤ a → a < input + len → m.session.Foreign P.env a)
    (hout : ∀ a, output ≤ a → a < output + len → m.session.Foreign P.env a) {f : Nat → UInt8}
    (hf : f 0 ≠ m.session.st.mem m.session.st.pool) :
    ¬Undisturbed P.env (b :: bs) (m.given input len f).session
      (final (aesEncryptMemcpy P c output input len) (m.given input len f)).session := by
  intro h
  have hle := I.wellFormed.pos_le
  have hhdr := P.env.hdr_pos
  have hpool := (I.layout (Or.inl (by simp))).1.pool_pos
  obtain ⟨hb, hfirst, htiles⟩ := tiles_cons.1 I.wellFormed.tiles
  have hsize : 0 < m.session.st.poolSize.toNat := by
    have hend := htiles.le
    omega
  -- the byte becomes the first byte of the input
  have hover := memcpy_overwrites (m := m.given input len f) (k := 0) input output hup harea hfit
    hbase hpool.ne' (Nat.pos_of_ne_zero hlen) hsize hout
  have hkept := h.headers b.addr (by simp) b.addr le_rfl (by omega)
  have hbefore : (m.given input len f).session.st.mem m.session.st.pool =
      m.session.st.mem m.session.st.pool := by
    rw [given_mem, Mem.fill_of_outside]
    by_contra hx
    have hforeign := (hin m.session.st.pool (by omega) (by omega)).2
    omega
  rw [given_mem, Mem.fill_of_inside _ _ (Nat.pos_of_ne_zero hlen)] at hover
  rw [hb, hbefore] at hkept
  exact hf (hover.symm.trans hkept)

/-- **A call leaves the heap alone** when it copies nothing, or there is no block. -/
theorem memcpy_undisturbed {bs : List Memmgr.Block} (I : Memmgr.Inv P.env m.session bs)
    (hup : c.Updates) (harea : P.area c.sharedMemBase len ≠ none)
    (hfit : P.Fits c.sharedMemBase len)
    (hin : ∀ a, input ≤ a → a < input + len → m.session.Foreign P.env a)
    (hout : ∀ a, output ≤ a → a < output + len → m.session.Foreign P.env a)
    (h : len = 0 ∨ bs = []) (f : Nat → UInt8) :
    Undisturbed P.env bs (m.given input len f).session
      (final (aesEncryptMemcpy P c output input len) (m.given input len f)).session := by
  have I' : Memmgr.Inv P.env (m.given input len f).session bs :=
    inv_fill I f fun a h1 h2 => Or.inr (hin a h1 h2)
  obtain ⟨m₁, n, g, hfinal, hn, hby, hfar, -⟩ :=
    memcpy_final hup harea hfit (m.given input len f) output input
  have hout' : ∀ a, output ≤ a → a < output + n →
      (m.given input len f).session.Foreign P.env a := fun a h1 h2 => hout a h1 (by omega)
  rw [hfinal]
  rcases h with rfl | rfl
  · -- the bus writes nothing
    have hsame : ∀ a, m₁.session.st.mem a = (m.given input 0 f).session.st.mem a := by
      intro a
      by_cases ha : (m.given input 0 f).InPool a
      · rw [hby.mem_image ha, hfar _ (Nat.zero_le _), busRead_image ha]
      · exact hby.mem_eq a ha
    exact undisturbed_of g I' hby (fun q _ a _ _ => hsame a) (fun a _ => hsame a) hout'
  · -- only `base` has a header, and it is not in the pool
    have hlive : m.session.live = [] := I.wellFormed.ledger.symm.eq_nil
    refine undisturbed_of g I' hby (fun q hq a h1 h2 => hby.mem_eq a ?_) ?_ hout'
    · obtain rfl := by simpa using hq
      rintro ⟨h3, h4, h5⟩
      have hbeside := (I.place.resolve_left fun h => h3 h.1).beside
      change m.session.st.pool ≤ a at h4
      change a < m.session.st.pool + m.session.st.poolSize.toNat at h5
      omega
    · rintro a ⟨p, k, hp, -⟩
      rw [show (m.given input len f).session.live = [] from hlive] at hp
      exact absurd hp (by simp)

/-- **The memcpy path leaves the heap alone exactly when it does nothing or there is no block yet**,
in every session that `memmgr_init_shared_short` opens, whatever the input contains. -/
theorem memcpy_frame {os : OsReply} {s s₁ : Memmgr.State} {log : List OsEvent} {r : NewReply}
    {key iv : List UInt8} {c₀ : FpgaAes} (hs : s.session = 0)
    (hopen : Memmgr.memmgrInitSharedShort P.env os s = (0, s₁, log))
    (hp : s₁.pool = 0 ∨ Memmgr.Placed P.env s₁.pool s₁.poolSize)
    (hS : Memmgr.Run P.env (fun _ => True) ⟨s₁, []⟩ m.session)
    (hnew : fpgaAesNewShort16 r key iv = some c₀) (hused : Used P (fun _ _ => True) c₀ c)
    (hfit : P.Fits baseAddressConst len)
    (hin : ∀ a, input ≤ a → a < input + len → m.session.Foreign P.env a)
    (hout : ∀ a, output ≤ a → a < output + len → m.session.Foreign P.env a) :
    ∃ bs, Memmgr.WellFormed P.env m.session bs ∧
      ((∀ f, Undisturbed P.env bs (m.given input len f).session
          (final (aesEncryptMemcpy P c output input len) (m.given input len f)).session) ↔
        P.area baseAddressConst len = none ∨ len = 0 ∨ m.session.st.poolFreePos = 0) := by
  obtain ⟨s', hs', hinit, hsize⟩ := initSharedShort_eq hs hopen
  rw [hinit] at hS
  have hplace : s₁.pool = 0 ∨ Memmgr.Placed P.env s₁.pool sharedSize := by rwa [← hsize]
  obtain ⟨bs, I⟩ := Memmgr.Reachable.inv hs' hplace hS
  obtain ⟨-, -, hbase⟩ := Memmgr.Reachable.samePool hs' hplace hS
  obtain ⟨hloc, hshared, -, hup⟩ := new_eq hnew
  have hfix := (hused.lastLocation_lt (by omega)).2
  have hshared' : c.sharedMemBase = baseAddressConst := hfix.sharedMemBase_eq.trans hshared
  rw [← hshared'] at hfit hbase ⊢
  refine ⟨bs, I.wellFormed, fun h => ?_, fun h f => ?_⟩
  · by_contra hnot
    simp only [not_or] at hnot
    obtain ⟨harea, hlen, hpos⟩ := hnot
    cases bs with
    | nil => exact hpos (by simpa using I.wellFormed.tiles)
    | cons b bs =>
      exact memcpy_disturbs (f := fun _ => m.session.st.mem m.session.st.pool + 1) I
        (hfix.updates hup) harea hfit hbase hlen hin hout (by simp) (h _)
  · by_cases harea : P.area c.sharedMemBase len = none
    · rw [final_of_ok (memcpy_unmapped harea)]
      have I' : Memmgr.Inv P.env (m.given input len f).session bs :=
        inv_fill I f fun a h1 h2 => Or.inr (hin a h1 h2)
      exact ⟨fun _ _ _ _ _ => rfl, fun _ _ => rfl, rfl, I'.wellFormed⟩
    · refine memcpy_undisturbed I (hfix.updates hup) harea hfit hin hout ?_ f
      rcases h.resolve_left harea with hlen | hpos
      · exact Or.inl hlen
      · refine Or.inr ?_
        cases bs with
        | nil => rfl
        | cons b bs =>
          obtain ⟨-, hfirst, htiles⟩ := tiles_cons.1 I.wellFormed.tiles
          have hend := htiles.le
          omega

/-- The 32-bit target, where a request for a mapping is granted. -/
def Platform.mapped (aes : Block → Block → Block) : Platform :=
  { Platform.zynq aes with os := ⟨4096, 3, some 0x40000000, true⟩ }

theorem mapped_area (aes : Block → Block → Block) :
    (Platform.mapped aes).area baseAddressConst 16 =
      some ⟨3, 0x40000000, 0x40000000, 8192, 0, 4096⟩ := by
  show (getSharedMemoryArea ⟨4096, 3, some 0x40000000, true⟩ _ _).1 = _
  decide

theorem mapped_fits (aes : Block → Block → Block) :
    (Platform.mapped aes).Fits baseAddressConst 16 := by
  intro mem h
  obtain rfl := Option.some.inj ((mapped_area aes).symm.trans h)
  decide

/-- The state of a session that has just been opened. -/
def openedShort : Memmgr.State :=
  (Memmgr.memmgrInitSharedShort Env.zynq ⟨4096, 3, some 0x100000, true⟩
    (Memmgr.State.loaded fun _ => 0)).2.1

/-- A call in a session that has just been opened. -/
theorem memcpy_frame_zynq : ∃ bs, ∀ f, Undisturbed Env.zynq bs
    ((Machine.on ⟨openedShort, []⟩).given 0x2000 16 f).session
    (final (aesEncryptMemcpy (Platform.mapped benchAes) benchCipher 0x3000 0x2000 16)
      ((Machine.on ⟨openedShort, []⟩).given 0x2000 16 f)).session := by
  have hforeign : ∀ p a, 0x2000 ≤ p → p ≤ 0x3000 → p ≤ a → a < p + 16 →
      (Memmgr.Session.mk openedShort []).Foreign Env.zynq a := fun p a h1 h2 h3 h4 =>
    ⟨Or.inr (show 0x1000 + 20 ≤ a by omega), Or.inl (show a < 0x100000 by omega)⟩
  obtain ⟨bs, -, h⟩ := memcpy_frame (P := Platform.mapped benchAes) (c := benchCipher)
    (m := Machine.on ⟨openedShort, []⟩) (s := Memmgr.State.loaded fun _ => 0) rfl
    (show Memmgr.memmgrInitSharedShort Env.zynq ⟨4096, 3, some 0x100000, true⟩ _ = _ from rfl)
    (Or.inr zynq_placed_shared) .refl benchCipher_new .refl (mapped_fits _)
    (fun a => hforeign 0x2000 a (by decide) (by decide))
    (fun a => hforeign 0x3000 a (by decide) (by decide))
  exact ⟨bs, h.2 (Or.inr (Or.inr rfl))⟩

/-- The first header has the size 14 in its second word, and there are zeros at 0x2004. -/
def ClobberReady (s : Memmgr.State) : Prop :=
  s.pool = 0x100000 ∧ s.poolSize = 0x800000 ∧ s.baseAddress = 0x1f410000 ∧ s.poolFreePos = 320 ∧
    s.mem 0x100004 = 14 ∧ s.mem 0x2004 = 0

instance (s : Memmgr.State) : Decidable (ClobberReady s) :=
  inferInstanceAs (Decidable (_ ∧ _ ∧ _ ∧ _ ∧ _ ∧ _))

/-- **A header is overwritten**: a block of 16 bytes is held, and a call for 16 zero bytes clears
the size of the free block before it. -/
theorem memcpy_clobbers : ∃ S, Memmgr.Run Env.zynq (fun _ => True) ⟨openedShort, []⟩ S ∧
    S.live = [(0x10012c, 16)] ∧ ∀ aes bs, Memmgr.WellFormed Env.zynq S bs →
      ¬Undisturbed Env.zynq bs S
        (final (aesEncryptMemcpy (Platform.mapped aes) benchCipher 0x3000 0x2000 16)
          (Machine.on S)).session := by
  have h : (Memmgr.memmgrAlloc Env.zynq 100 openedShort 16).map (fun r =>
      (r.1, decide (ClobberReady r.2))) = some (0x10012c, true) := by
    decide +kernel
  simp only [Option.map_eq_some_iff, Prod.mk.injEq, decide_eq_true_eq] at h
  obtain ⟨⟨p, s⟩, halloc, rfl, hpool, hsize, hbase, hpos, hheader, hinput⟩ := h
  dsimp only at hpool hsize hbase hpos hheader hinput
  have hstep := Memmgr.Step.alloc (S := ⟨openedShort, []⟩) (by decide) halloc
  refine ⟨⟨s, [(0x10012c, 16)]⟩, .single ⟨_, trivial, hstep⟩, rfl, fun aes bs hwf hsame => ?_⟩
  have htiles := hwf.tiles
  have hover := memcpy_overwrites (P := Platform.mapped aes) (c := benchCipher)
    (m := Machine.on ⟨s, [(0x10012c, 16)]⟩) (k := 4) 0x2000 0x3000
    ⟨rfl, rfl, rfl, rfl, rfl, rfl⟩ (fun h => absurd ((mapped_area aes).symm.trans h) (by simp))
    (mapped_fits aes) hbase
    (by simp [Machine.on, hpool]) (show 4 < 16 by decide) (by simp [Machine.on, hsize])
    fun a h1 h2 => ⟨Or.inr (show 0x1000 + 20 ≤ a by omega), Or.inl (by
      show a < s.pool
      omega)⟩
  cases bs with
  | nil =>
    rw [tiles_nil, hpos] at htiles
    omega
  | cons b bs =>
    have hb : b.addr = s.pool := (tiles_cons.1 htiles).1
    have hlow : b.addr ≤ (Machine.on ⟨s, [(0x10012c, 16)]⟩).session.st.pool + 4 := by
      show b.addr ≤ s.pool + 4
      omega
    have hup : (Machine.on ⟨s, [(0x10012c, 16)]⟩).session.st.pool + 4 < b.addr + Env.zynq.hdr := by
      show s.pool + 4 < b.addr + 20
      omega
    have h1 := hsame.headers b.addr (by simp) _ hlow hup
    rw [hover] at h1
    simp [Machine.on, hpool, hheader, hinput] at h1

end Zedboard
