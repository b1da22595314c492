import Zedboard.Aes.Stream

/-!
# Where the core reads and writes

The jobs of a call of `Aes_encrypt_memmgr` move bytes of the two buffers, or of scratch blocks of
sixteen bytes that are held at that moment (`Contained`), unless the heap has room for one scratch
block only.  Then the second pointer is null, which the function does not look at, and a job is
started whose destination is the image of the null pointer (`dma_strays`).

`DmaSafe` is the exact condition.
-/

set_option autoImplicit false

namespace Zedboard

open Machine Prog

variable {P : Platform} {m m' : Machine} {c : FpgaAes} {bs : List Memmgr.Block}
  {input output nin nout len i : Nat} {s : Started}

/-! ## Ranges of physical addresses -/

/-- The `n` bytes at the physical address `a` are among the images of the `k` bytes at the pointer
`p`. -/
def Within (m : Machine) (a : UInt32) (n p k : Nat) : Prop :=
  ∀ i, i < n → ∃ j, j < k ∧ a + UInt32.ofNat i = m.phys (p + j)

/-- Two pointers with the same image differ by a multiple of the size of the bus. -/
theorem phys_inj (hpool : m.session.st.pool ≠ 0) {p j k : Nat}
    (h : m.phys (p + j) = m.phys (p + k)) : j % 2 ^ 32 = k % 2 ^ 32 := by
  rw [phys_add hpool, phys_add hpool, UInt32.add_right_inj] at h
  simpa [UInt32.toNat_ofNat'] using congrArg UInt32.toNat h

/-- A range that begins `d` bytes behind the image of `p`. -/
theorem within_offset (hpool : m.session.st.pool ≠ 0) {p n d k : Nat} (hd : d + n ≤ 2 ^ 32)
    (hk : k ≤ 2 ^ 32) : Within m (m.phys p + UInt32.ofNat d) n p k ↔ n = 0 ∨ d + n ≤ k := by
  have himage : ∀ i, m.phys p + UInt32.ofNat d + UInt32.ofNat i =
      m.phys (p + (d + i)) := fun i => by
    rw [phys_add hpool, add_ofNat_add]
  constructor
  · intro h
    by_cases hn : n = 0
    · exact Or.inl hn
    · obtain ⟨j, hj, hij⟩ := h (n - 1) (by omega)
      rw [himage] at hij
      have := phys_inj hpool hij
      omega
  · rintro (rfl | h) i hi
    · exact absurd hi (Nat.not_lt_zero i)
    · exact ⟨d + i, by omega, himage i⟩

theorem within_self (hpool : m.session.st.pool ≠ 0) (p : Nat) {n : Nat} (hn : n ≤ 2 ^ 32) :
    Within m (m.phys p) n p n := by
  have h := (within_offset hpool (p := p) (n := n) (d := 0) (by omega) hn).2 (Or.inr (by omega))
  simpa using h

/-- What lies within a block is not longer than it. -/
theorem Within.length_le (hpool : m.session.st.pool ≠ 0) {a : UInt32} {n p k : Nat}
    (hn : n + k ≤ 2 ^ 32) (h : Within m a n p k) : n ≤ k := by
  by_cases h0 : n = 0
  · omega
  · obtain ⟨d, hd, ha⟩ := h 0 (by omega)
    have ha' : a = m.phys p + UInt32.ofNat d := by
      rw [← phys_add hpool, ← ha]
      simp
    rw [ha'] at h
    rcases (within_offset hpool (by omega) (by omega)).1 h with h | h
    · exact absurd h h0
    · omega

/-- The range lies in the image of the `k` bytes at `p`, or of a block of sixteen bytes that is held
when the job starts. -/
def InImage (m : Machine) (s : Started) (a : UInt32) (p k : Nat) : Prop :=
  Within m a s.job.numBytes.toNat p k ∨
    ∃ t, (t, 16) ∈ s.live ∧ Within m a s.job.numBytes.toNat t 16

/-- The job reads from the input or from a scratch block, and stores into the output or into a
scratch block. -/
def Contained (m : Machine) (input nin output nout : Nat) (s : Started) : Prop :=
  InImage m s s.job.source input nin ∧ InImage m s s.job.dest output nout

/-- Jobs between the buffers and between scratch blocks are contained. -/
theorem Proper.contained (hpool : m.session.st.pool ≠ 0) (hin : len ≤ nin) (hout : len ≤ nout)
    (hnin : nin ≤ 2 ^ 32) (hnout : nout ≤ 2 ^ 32) (h : Proper m input output len s) :
    Contained m input nin output nout s := by
  cases h with
  | buffers hlen hsource hdest =>
    rw [Contained, hsource, hdest]
    exact ⟨Or.inl ((within_offset hpool (by omega) hnin).2 (Or.inr (by omega))),
      Or.inl ((within_offset hpool (by omega) hnout).2 (Or.inr (by omega)))⟩
  | scratch hlen hsource ht hdest hu =>
    have h16 : s.job.numBytes.toNat = 16 := by rw [hlen]; decide
    rw [Contained, InImage, InImage, h16, hsource, hdest]
    exact ⟨Or.inr ⟨_, ht, within_self hpool _ (by decide)⟩,
      Or.inr ⟨_, hu, within_self hpool _ (by decide)⟩⟩

/-! ## Lengths that overflow -/

/-- From 2³¹ bytes on the length is a negative `int`, and so is the number of blocks.  Made a
`size_t` it is the number of bytes rounded up. -/
theorem toNat_dataLength_neg (e : Env) {q : Nat} (h0 : 0 < q) (hq : q * 16 < 2 ^ 32) :
    (dataLength (e.sizeT (-(q : Int) * 16))).toNat = 2 ^ 32 - q * 16 := by
  have hr : e.range = 2 ^ 32 ∨ e.range = 2 ^ 64 := by
    rw [Env.range, Env.word]
    cases e.abi
    · exact Or.inl (by decide)
    · exact Or.inr (by decide)
  have hsize : e.sizeT (-(q : Int) * 16) = e.range - q * 16 := by
    rw [Env.sizeT]
    rcases hr with hr | hr
    · rw [hr]
      omega
    · rw [hr]
      omega
  rw [hsize, dataLength, UInt32.toNat_ofNat']
  rcases hr with hr | hr
  · rw [hr]
    omega
  · rw [hr]
    omega

/-- One job runs then, and nothing else happens. -/
theorem ctrRest_long_ok (P : Platform) (m : Machine) (c : FpgaAes) (input output : Nat)
    (src dest : UInt32) (hlen : 2 ^ 31 ≤ len - i) (hmax : len - i + 16 ≤ 2 ^ 32) :
    ∃ n c' regs, (dataLength n).toNat = (len - i + 15) / 16 * 16 ∧
      ctrRest P c input len output src dest i m = .ok (cInt len, c')
        (runJob P.aes (jobFor c.updating n (src + UInt32.ofNat i) (dest + UInt32.ofNat i) 2)
          ((dataLength n).toNat / 16)
          (m.posted regs
            (jobFor c.updating n (src + UInt32.ofNat i) (dest + UInt32.ofNat i) 2))) := by
  obtain ⟨r, hr⟩ : ∃ r, r = 2 ^ 32 - (len - i) := ⟨_, rfl⟩
  have hneg : cInt (len - i) = -(r : Int) := by
    rw [cInt, BitVec.toInt_eq_toNat_cond, BitVec.toNat_ofNat]
    omega
  have hextra : (-(r : Int)).tmod 16 = -((r % 16 : Nat) : Int) := by
    rw [Int.neg_tmod, Int.natCast_emod, Int.tmod_eq_emod_of_nonneg (by omega)]
    rfl
  have hfull : (-(r : Int)).tdiv 16 = -((r / 16 : Nat) : Int) := by
    rw [Int.neg_tdiv]
    rfl
  obtain ⟨regs, hrun⟩ := aesEncrypt_eq (P := P) (m := m) (updating_updates c)
    (P.env.sizeT (-((r / 16 : Nat) : Int) * 16)) (src + UInt32.ofNat i) (dest + UInt32.ofNat i) 2
  generalize hn : P.env.sizeT (-((r / 16 : Nat) : Int) * 16) = n at hrun
  refine ⟨n, addIvCipher (c.updating.afterEncrypt n (src + UInt32.ofNat i)
    (dest + UInt32.ofNat i) 2)
    (UInt32.ofInt (-((r / 16 : Nat) : Int))), regs, ?_, ?_⟩
  · rw [← hn, toNat_dataLength_neg P.env (by omega) (by omega)]
    omega
  · rw [ctrRest]
    dsimp only
    rw [hneg, hextra, hfull, hn]
    refine (bind_of_ok hrun).trans ?_
    rw [if_neg (by omega)]
    rfl

/-- So that job is the only one that is started. -/
theorem ctrRest_long (P : Platform) (m : Machine) (c : FpgaAes) (input output : Nat)
    (src dest : UInt32) (hlen : 2 ^ 31 ≤ len - i) (hmax : len - i + 16 ≤ 2 ^ 32) :
    ∃ s, (final (ctrRest P c input len output src dest i) m).jobs = m.jobs ++ [s] ∧
      s.job.source = src + UInt32.ofNat i ∧ s.job.dest = dest + UInt32.ofNat i ∧
      s.job.numBytes.toNat = (len - i + 15) / 16 * 16 ∧ s.live = m.session.live := by
  obtain ⟨n, c', regs, hn, hrun⟩ := ctrRest_long_ok P m c input output src dest hlen hmax
  refine ⟨⟨jobFor c.updating n (src + UInt32.ofNat i) (dest + UInt32.ofNat i) 2, m.session.live⟩,
    ?_, rfl, rfl, hn, rfl⟩
  rw [final_of_ok hrun]
  exact runJob_jobs _ _ _

/-! ## The exact condition -/

/-- The jobs that a call of `Aes_encrypt_memmgr` starts are contained, however it ends. -/
def JobsContained (P : Platform) (m : Machine) (c : FpgaAes) (input nin output nout len : Nat) :
    Prop :=
  ∃ js, (final (aesEncryptMemmgr P c output input len) m).jobs = m.jobs ++ js ∧
    ∀ s ∈ js, Contained m input nin output nout s

/-- The sixteen bytes at the image of the null pointer are bytes of the output, or a block that is
held when there is one scratch block only. -/
def NullHarmless (P : Platform) (m : Machine) (bs : List Memmgr.Block) (output nout : Nat) : Prop :=
  Within m (m.phys 0) 16 output nout ∨ ∃ t, ((t, 16) ∈ m.session.live ∨
    ∃ b ∈ bs, b.isFree = true ∧ 2 ≤ b.size ∧ t = lastScratch P.env b) ∧ Within m (m.phys 0) 16 t 16

/-- The condition under which the jobs are contained.  Either `memmgr_assert` rejects one of the
pointers, or the bytes behind the leftover of the last block can be counted by an `int` and there is
not exactly one scratch block where two are needed, or they cannot, and the buffers have room for
their number rounded up. -/
def DmaSafe (P : Platform) (m : Machine) (c : FpgaAes) (bs : List Memmgr.Block)
    (input nin output nout len : Nat) : Prop :=
  ¬(Memmgr.memmgrAssert P.env m.session.st input = true ∧
    Memmgr.memmgrAssert P.env m.session.st output = true) ∨
  (len - c.core.leftover len < 2 ^ 31 ∧
    (c.core.extraBytes len = 0 ∨ Memmgr.Serves P.env m.session.st bs 2 ∨
      ¬Memmgr.Serves P.env m.session.st bs 1 ∨ NullHarmless P m bs output nout)) ∨
  (2 ^ 31 ≤ len - c.core.leftover len ∧
    c.core.leftover len + (len - c.core.leftover len + 15) / 16 * 16 ≤ nin ∧
    c.core.leftover len + (len - c.core.leftover len + 15) / 16 * 16 ≤ nout)

/-- A rejected pointer ends the program at once. -/
theorem memmgr_rejects (h : ¬(Memmgr.memmgrAssert P.env m.session.st input = true ∧
    Memmgr.memmgrAssert P.env m.session.st output = true)) :
    final (aesEncryptMemmgr P c output input len) m = m := by
  rw [aesEncryptMemmgr]
  by_cases hin : Memmgr.memmgrAssert P.env m.session.st input = true
  · have e₁ : memmgrAssert P input m = .ok () m := if_pos hin
    have e₂ : memmgrAssert P output m = .error .abort m := if_neg fun hout => h ⟨hin, hout⟩
    rw [final_bind e₁, final_of_error (bind_of_error e₂)]
  · have e₁ : memmgrAssert P input m = .error .abort m := if_neg hin
    rw [final_of_error (bind_of_error e₁)]

theorem memmgr_accepts (c : FpgaAes) (len : Nat)
    (hin : Memmgr.memmgrAssert P.env m.session.st input = true)
    (hout : Memmgr.memmgrAssert P.env m.session.st output = true) :
    final (aesEncryptMemmgr P c output input len) m =
      final (aesEncryptCtrHw P c input len output (m.phys input) (m.phys output)) m := by
  have e₁ : memmgrAssert P input m = .ok () m := if_pos hin
  have e₂ : memmgrAssert P output m = .ok () m := if_pos hout
  rw [aesEncryptMemmgr, final_bind e₁, final_bind e₂, final_bind (lookup_ok input),
    final_bind (lookup_ok output)]

/-- Two free blocks that are big enough have two scratch blocks. -/
theorem eq_of_spare {b b' : Memmgr.Block} (h : Memmgr.spare bs < 2) (hb : b ∈ bs) (hb' : b' ∈ bs)
    (hfree : b.isFree = true) (hfree' : b'.isFree = true) (hsize : 2 ≤ b.size)
    (hsize' : 2 ≤ b'.size) : b = b' := by
  by_contra hne
  obtain ⟨l, r, rfl⟩ := List.append_of_mem hb
  have hrest : b' ∈ l ++ r := by
    simpa [Ne.symm hne] using hb'
  have h1 := Memmgr.le_spare hrest hfree'
  rw [Memmgr.spare_append, Memmgr.spare_cons_free hfree] at h
  rw [Memmgr.spare_append] at h1
  omega

/-- Where the stray job goes. -/
theorem Stray.contained_iff (hpool : m.session.st.pool ≠ 0)
    (h2 : ¬Memmgr.Serves P.env m.session.st bs 2) (h : Stray P m bs s) :
    Contained m input nin output nout s ↔ NullHarmless P m bs output nout := by
  obtain ⟨b, hb, hfree, hsize, hsource, hdest, hbytes, hlive⟩ := h
  have h16 : s.job.numBytes.toNat = 16 := by rw [hbytes]; decide
  have hsrc : InImage m s s.job.source input nin :=
    Or.inr ⟨lastScratch P.env b, by simp [hlive], by
      rw [h16, hsource]
      exact within_self hpool _ (by decide)⟩
  have hspare : Memmgr.spare bs < 2 := by
    by_contra hge
    exact h2 (Or.inr (by omega))
  rw [Contained, NullHarmless, and_iff_right hsrc, InImage, h16, hdest, hlive]
  refine or_congr Iff.rfl (exists_congr fun t => and_congr_left fun _ => ?_)
  rw [List.mem_cons, or_comm]
  refine or_congr Iff.rfl ⟨fun h => ⟨b, hb, hfree, hsize, congrArg Prod.fst h⟩, ?_⟩
  rintro ⟨b', hb', hfree', hsize', rfl⟩
  rw [eq_of_spare hspare hb hb' hfree hfree' hsize hsize']

theorem jobsContained_iff_of_jobs {js : List Started}
    (h : (final (aesEncryptMemmgr P c output input len) m).jobs = m.jobs ++ js) :
    JobsContained P m c input nin output nout len ↔
      ∀ s ∈ js, Contained m input nin output nout s := by
  constructor
  · rintro ⟨js', h', hall⟩
    rwa [List.append_cancel_left (h'.symm.trans h)] at hall
  · exact fun hall => ⟨js, h, hall⟩

/-- A payload has a header in front of it. -/
theorem payload_room {e : Env} {S : Memmgr.Session} {p n : Nat} (I : Memmgr.Inv e S bs)
    (hp : (p, n) ∈ S.live) : n + 16 ≤ S.st.poolSize.toNat := by
  obtain ⟨l, b, r, rfl, -, hbp, hlen⟩ := I.exists_block hp
  obtain ⟨Pl, L⟩ := I.layout (Or.inl (by simp))
  have hb := L.bounds (b := b) (by simp)
  have hin := L.inside
  have hhdr := e.le_hdr
  omega

/-- A call with a length that overflows. -/
theorem long_contained_iff (I : Memmgr.Inv P.env m.session bs)
    (hin : (input, nin) ∈ m.session.live) (hout : (output, nout) ∈ m.session.live)
    (hlin : len ≤ nin) (hlen : 2 ^ 31 ≤ len - c.core.leftover len)
    (hctr : final (aesEncryptMemmgr P c output input len) m =
      final (aesEncryptCtrHw P c input len output (m.phys input) (m.phys output)) m) :
    JobsContained P m c input nin output nout len ↔
      c.core.leftover len + (len - c.core.leftover len + 15) / 16 * 16 ≤ nin ∧
      c.core.leftover len + (len - c.core.leftover len + 15) / 16 * 16 ≤ nout := by
  have hpool := (I.placed (Memmgr.Session.owns_of_mem hin)).1.pool_pos.ne'
  have hsize := m.session.st.poolSize.toNat_lt
  have hnin := payload_room I hin
  have hnout := payload_room I hout
  have hleft : c.core.leftover len < 16 := by
    rw [Core.leftover]
    split <;> omega
  obtain ⟨f, hrun, -⟩ := ctrHw_leftover P m c input output len (m.phys input) (m.phys output)
  rw [if_neg (by omega)] at hrun
  obtain ⟨s, hjobs, hsource, hdest, hbytes, -⟩ := ctrRest_long P
    (m.withMem (m.session.st.mem.fill output (c.core.leftover len) f)) (c.begun (m.phys input) len)
    input output (m.phys input) (m.phys output) hlen (by omega)
  have hfinal : (final (aesEncryptMemmgr P c output input len) m).jobs = m.jobs ++ [s] := by
    rw [hctr, final, hrun]
    exact hjobs
  have himage : ∀ {a : UInt32} {p k : Nat}, k + 16 ≤ 2 ^ 32 →
      a = m.phys p + UInt32.ofNat (c.core.leftover len) → (InImage m s a p k ↔
        c.core.leftover len + (len - c.core.leftover len + 15) / 16 * 16 ≤ k) := by
    intro a p k hk ha
    rw [InImage, hbytes, ha, within_offset hpool (by omega) (by omega)]
    constructor
    · rintro ((h | h) | ⟨t, -, h⟩)
      · omega
      · exact h
      · have := h.length_le hpool (by omega)
        omega
    · exact fun h => Or.inl (Or.inr h)
  rw [jobsContained_iff_of_jobs hfinal, List.forall_mem_singleton, Contained,
    himage (by omega) hsource, himage (by omega) hdest]

/-- **The jobs are contained exactly when the condition holds.** -/
theorem jobsContained_iff (I : Memmgr.Inv P.env m.session bs)
    (hf : 2 * m.session.st.poolSize.toNat + 2 ≤ P.fuel) (hin : (input, nin) ∈ m.session.live)
    (hout : (output, nout) ∈ m.session.live) (hlin : len ≤ nin) (hlout : len ≤ nout)
    (hloc : c.lastLocation < 16) :
    JobsContained P m c input nin output nout len ↔
      DmaSafe P m c bs input nin output nout len := by
  by_cases hacc : Memmgr.memmgrAssert P.env m.session.st input = true ∧
      Memmgr.memmgrAssert P.env m.session.st output = true
  · have hctr := memmgr_accepts c len hacc.1 hacc.2
    by_cases hlen : len - c.core.leftover len < 2 ^ 31
    · rw [DmaSafe, or_iff_right (not_not.2 hacc), or_iff_left (by omega), and_iff_right hlen]
      have hpool := (I.placed (Memmgr.Session.owns_of_mem hin)).1.pool_pos.ne'
      have hsize := m.session.st.poolSize.toNat_lt
      have hnin := payload_room I hin
      have hnout := payload_room I hout
      have hin' : m.session.Owns input len := ⟨input, nin, hin, le_rfl, by omega⟩
      have hout' : m.session.Owns output len := ⟨output, nout, hout, le_rfl, by omega⟩
      have hproper : ∀ {s : Started}, Proper m input output len s →
          Contained m input nin output nout s :=
        fun h => h.contained hpool hlin hlout (by omega) (by omega)
      by_cases hserves : c.core.extraBytes len = 0 ∨ Memmgr.Serves P.env m.session.st bs 2
      · obtain ⟨c', m', js, hrun, S, hjobs, -⟩ := ctrHw_returns I hf hlen hin' hout' hloc hserves
        have hfinal : (final (aesEncryptMemmgr P c output input len) m).jobs = m.jobs ++ js := by
          rw [hctr, final_of_ok hrun, S.frame.jobs_eq]
        rw [jobsContained_iff_of_jobs hfinal]
        exact iff_of_true (fun s hs => hproper (hjobs s hs)) (hserves.imp id Or.inl)
      · obtain ⟨hextra, h2⟩ := not_or.1 hserves
        obtain ⟨s, hs, hstarved⟩ := hctr ▸ (ctrHw_stops I hf hlen hin' hout' hextra h2).final
        rw [or_iff_right hextra, or_iff_right h2]
        rcases hstarved with ⟨h1, hjobs⟩ | ⟨h1, s', hstray, hjobs⟩
        · rw [jobsContained_iff_of_jobs hjobs, List.forall_mem_singleton]
          exact iff_of_true (hproper hs) (Or.inl h1)
        · rw [jobsContained_iff_of_jobs hjobs, List.forall_mem_cons, List.forall_mem_singleton,
            and_iff_right (hproper hs), hstray.contained_iff hpool h2, or_iff_right (not_not.2 h1)]
    · rw [DmaSafe, or_iff_right (not_not.2 hacc), or_iff_right (by omega),
        and_iff_right (by omega)]
      exact long_contained_iff I hin hout hlin (by omega) hctr
  · have hfinal : (final (aesEncryptMemmgr P c output input len) m).jobs = m.jobs ++ [] := by
      rw [memmgr_rejects hacc, List.append_nil]
    rw [jobsContained_iff_of_jobs hfinal]
    exact iff_of_true (by simp) (Or.inl hacc)

/-- On the 32-bit target the image of the null pointer is neither in the output nor in a block that
is held, so there the condition excludes exactly one scratch block where two are needed. -/
theorem not_nullHarmless (I : Memmgr.Inv P.env m.session bs) (habi : P.env.abi = .ilp32)
    (hout : (output, nout) ∈ m.session.live) : ¬NullHarmless P m bs output nout := by
  have hrange : P.env.range = 2 ^ 32 := by rw [Env.range, Env.word, habi]; decide
  have hhdr : P.env.hdr = 20 := by rw [Env.hdr, habi]; rfl
  obtain ⟨Pl, -, hlow, hup⟩ := I.placed (Memmgr.Session.owns_of_mem hout)
  have hfits := Pl.fits
  -- the bytes of the pool have other images
  have hno : ∀ p k, m.session.st.pool ≤ p →
      p + k ≤ m.session.st.pool + m.session.st.poolSize.toNat →
      ¬Within m (m.phys 0) 16 p k := by
    intro p k h1 h2 h
    obtain ⟨j, hj, h0⟩ := h 0 (by decide)
    have h3 : m.phys (0 + 0) = m.phys (0 + (p + j)) := by simpa using h0
    have h4 := phys_inj Pl.pool_pos.ne' h3
    have := Pl.pool_pos
    omega
  rintro (h | ⟨t, ht | ⟨b, hb, -, hsize, rfl⟩, h⟩)
  · exact hno _ _ hlow hup h
  · obtain ⟨-, -, h1, h2⟩ := I.placed (Memmgr.Session.owns_of_mem ht)
    exact hno _ _ h1 h2 h
  · obtain ⟨-, L⟩ := I.layout (Or.inl (List.ne_nil_of_mem hb))
    have hb' := L.bounds hb
    have hin := L.inside
    rw [Memmgr.Block.bytes, hhdr] at hb'
    refine hno _ _ ?_ ?_ h
    · rw [lastScratch]
      omega
    · rw [lastScratch, hhdr]
      omega

/-- **The jobs of `Aes_encrypt_memmgr` are contained exactly when the condition holds**, in every
session that can be reached, for every cipher that has been used in any way, and for every two
pointers that clients hold. -/
theorem dma_contained {s : Memmgr.State} {buffer ivLength : Nat} {length baseAddress base : UInt32}
    {r : NewReply} {key iv : List UInt8} {mode : Int} {c₀ : FpgaAes} (hs : s.session = 0)
    (hp : buffer = 0 ∨ Memmgr.Placed P.env buffer length)
    (hS : Memmgr.Reachable P.env s buffer length baseAddress m.session)
    (hf : 2 * length.toNat + 2 ≤ P.fuel) (hnew : fpgaAesNew r key base iv ivLength mode = some c₀)
    (hused : Used P (fun _ _ => True) c₀ c) (hin : (input, nin) ∈ m.session.live)
    (hout : (output, nout) ∈ m.session.live) (hlin : len ≤ nin) (hlout : len ≤ nout) :
    ∃ bs, Memmgr.WellFormed P.env m.session bs ∧
      (JobsContained P m c input nin output nout len ↔
        DmaSafe P m c bs input nin output nout len) := by
  obtain ⟨bs, I⟩ := hS.inv hs hp
  obtain ⟨hloc, -⟩ := hused.lastLocation_lt (by rw [(new_eq hnew).1]; decide)
  exact ⟨bs, I.wellFormed,
    jobsContained_iff I (by rwa [hS.poolSize_eq hs hp]) hin hout hlin hlout hloc⟩

/-- A call for a hundred bytes where there is room for scratch blocks. -/
theorem dma_contained_zynq : ∃ S,
    Memmgr.Reachable Env.zynq (Memmgr.State.loaded fun _ => 0) 0x100000 0x800000 0x1f410000 S ∧
      JobsContained (Platform.zynq benchAes) (Machine.on S) benchCipher 0x100014 0x100000
        0x20002c 0x100000 100 := by
  obtain ⟨S, hS, hlive, hroomy, -⟩ := bench_reachable
  have hin : (0x100014, 0x100000) ∈ (Machine.on S).session.live := by simp [Machine.on, hlive]
  have hout : (0x20002c, 0x100000) ∈ (Machine.on S).session.live := by simp [Machine.on, hlive]
  obtain ⟨bs, -, h⟩ := dma_contained (P := Platform.zynq benchAes) (m := Machine.on S) rfl
    (Or.inr zynq_placed_shared) hS (zynq_fuel _) benchCipher_new .refl hin hout
    (show 100 ≤ 0x100000 by decide) (by decide)
  exact ⟨S, hS, h.2 (Or.inr (Or.inl ⟨by decide, Or.inr (Or.inl (Or.inl hroomy))⟩))⟩

/-- The jobs of a call for 20 bytes in a pool of 640 bytes, of which two blocks of 250 and 290 bytes
have left one scratch block. -/
def strayJobs : List Started :=
  [⟨⟨⟨0, 0, 0, 0⟩, ⟨0, 0, 0, 0xff000000⟩, 0x1f41003c, 0x1f410154, 16, 2⟩,
      [(0x100154, 290), (0x10003c, 250)]⟩,
    ⟨⟨⟨0, 0, 0, 0⟩, ⟨0, 0, 0, 0x10000⟩, 0x1f410014, 0x1f310000, 16, 0⟩,
      [(0x100014, 16), (0x100154, 290), (0x10003c, 250)]⟩]

/-- The pool is mapped, and the call has these jobs. -/
def StrayReady (s : Memmgr.State) : Prop :=
  s.pool = 0x100000 ∧ s.baseAddress = 0x1f410000 ∧
    (final (aesEncryptMemmgr (Platform.zynq benchAes) benchCipher 0x100154 0x10003c 20)
      (Machine.on ⟨s, [(0x100154, 290), (0x10003c, 250)]⟩)).jobs = strayJobs

instance (s : Memmgr.State) : Decidable (StrayReady s) :=
  inferInstanceAs (Decidable (_ ∧ _ ∧ _))

/-- **A stray job**: the core stores sixteen bytes below the pool. -/
theorem dma_strays : ∃ S,
    Memmgr.Reachable Env.zynq (Memmgr.State.loaded fun _ => 0) 0x100000 640 0x1f410000 S ∧
      S.live = [(0x100154, 290), (0x10003c, 250)] ∧
      ¬JobsContained (Platform.zynq benchAes) (Machine.on S) benchCipher 0x10003c 250 0x100154
        290 20 := by
  have h : ((Memmgr.memmgrAlloc Env.zynq 100 (Memmgr.memmgrInit Env.zynq
      (Memmgr.State.loaded fun _ => 0) 0x100000 640 0x1f410000) 250).bind fun r =>
        (Memmgr.memmgrAlloc Env.zynq 100 r.2 290).map fun r' =>
          (r.1, r'.1, r.2.poolSize, decide (StrayReady r'.2))) =
      some (0x10003c, 0x100154, 640, true) := by
    decide +kernel
  simp only [Option.bind_eq_some_iff, Option.map_eq_some_iff, Prod.mk.injEq,
    decide_eq_true_eq] at h
  obtain ⟨⟨p, s₁⟩, h₁, ⟨q, s₂⟩, h₂, rfl, rfl, hsize, hpool, hbase, hjobs⟩ := h
  dsimp only at h₂ hsize hpool hbase hjobs
  have hn : 290 ≤ s₁.poolSize.toNat := by rw [hsize]; decide
  have hstep := Memmgr.Step.alloc (S := ⟨s₁, [(0x10003c, 250)]⟩) hn h₂
  refine ⟨⟨s₂, [(0x100154, 290), (0x10003c, 250)]⟩,
    .tail (.tail .refl ⟨_, trivial, .alloc (by decide) h₁⟩) ⟨_, trivial, hstep⟩, rfl, ?_⟩
  have hjobs' : (final (aesEncryptMemmgr (Platform.zynq benchAes) benchCipher 0x100154 0x10003c
      20) (Machine.on ⟨s₂, [(0x100154, 290), (0x10003c, 250)]⟩)).jobs = [] ++ strayJobs := hjobs
  rw [jobsContained_iff_of_jobs hjobs', strayJobs, List.forall_mem_cons, List.forall_mem_singleton]
  -- the destination of the second job is the image of the null pointer
  have hno : ∀ p k, p + k < 2 ^ 32 → 0 < p → ¬Within
      (Machine.on ⟨s₂, [(0x100154, 290), (0x10003c, 250)]⟩) 0x1f310000 16 p k := by
    intro p k hk hp h
    obtain ⟨j, hj, h0⟩ := h 0 (by decide)
    have hpool' : (Machine.on ⟨s₂, [(0x100154, 290), (0x10003c, 250)]⟩).session.st.pool ≠ 0 := by
      simp [Machine.on, hpool]
    have hnull : (Machine.on ⟨s₂, [(0x100154, 290), (0x10003c, 250)]⟩).phys (0 + 0) =
        0x1f310000 + UInt32.ofNat 0 := by
      simp only [phys, Memmgr.lookupBufferPhysicalAddress, Machine.on, hpool, hbase]
      decide
    have := phys_inj hpool' (hnull.trans (h0.trans (by rw [Nat.zero_add])))
    omega
  rintro ⟨-, -, h | ⟨t, ht, h⟩⟩
  · exact hno _ _ (by decide) (by decide) h
  · obtain rfl : t = 0x100014 := by simpa using ht
    exact hno _ _ (by decide) (by decide) h

end Zedboard
