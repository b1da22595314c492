import Zedboard.Aes.Core
import Zedboard.Aes.Steps

/-!
# Counter mode in the core

What a call of `Aes_encrypt_ctr_hw` does on a heap in order, for buffers in payloads that clients
hold.  The function is followed along its three parts, each with a lemma for its result: what is
left of the last keystream block, the whole blocks (`ctrRest`) and the last partial block
(`ctrTail`).

When two scratch blocks can be allocated, or none are needed, the call returns (`ctrHw_returns`).
When the heap is too full for them it does not (`ctrHw_stops`); if it is too full for the second one
only, a job has been started by then whose destination is the image of the null pointer.
-/

set_option autoImplicit false

namespace Zedboard

namespace Memmgr

variable {e : Env} {S S' : Session} {bs : List Block} {p n a : Nat}

theorem Session.Usable.mono (h : S.Usable e a) (hsub : ∀ x ∈ S.live, x ∈ S'.live)
    (hpool : S'.st.pool = S.st.pool) (hsize : S'.st.poolSize = S.st.poolSize) : S'.Usable e a := by
  rcases h with ⟨q, k, hlive, h1, h2⟩ | ⟨h1, h2⟩
  · exact Or.inl ⟨q, k, hsub _ hlive, h1, h2⟩
  · exact Or.inr ⟨h1, by rwa [hpool, hsize]⟩

/-- What has just been allocated is apart from everything a client could use before. -/
theorem Inv.fresh_apart (I : Inv e S' bs) (hlive : S'.live = (p, n) :: S.live)
    (hpool : S'.st.pool = S.st.pool) (hsize : S'.st.poolSize = S.st.poolSize)
    (ha : S.Usable e a) : a < p ∨ p + n ≤ a := by
  have hp : (p, n) ∈ S'.live := by simp [hlive]
  rcases ha with ⟨q, k, hq, h1, h2⟩ | ⟨-, h2⟩
  · have hpair := I.pairwise.2
    rw [hlive, List.pairwise_cons] at hpair
    have := hpair.1 _ hq
    omega
  · have h3 := I.payload hp
    rw [hpool, hsize] at h3
    omega

end Memmgr

open Machine Prog

variable {P : Platform} {m m' m'' : Machine} {c : FpgaAes} {bs : List Memmgr.Block}
  {input output n len i : Nat}

/-! ## The last partial block -/

/-- Enciphering a block between two buffers. -/
theorem block_job (I : Memmgr.Inv P.env m.session bs) (hup : c.Updates) {t u : Nat}
    (ht : m.session.Owns t 16) (hu : m.session.Owns u 16) (hapart : t + 16 ≤ u ∨ u + 16 ≤ t)
    (f : Nat → UInt8) :
    ∃ regs, aesEncrypt P c 16 (m.phys t) (m.phys u) 0
        (m.withMem (m.session.st.mem.fill t 16 f)) =
      .ok (c.afterEncrypt 16 (m.phys t) (m.phys u) 0)
        ((m.posted regs (jobFor c 16 (m.phys t) (m.phys u) 0)).withMem
          ((m.session.st.mem.fill t 16 f).fill u 16 (c.core.encipher P.aes fun i => f i).at)) := by
  obtain ⟨Pl, -, htlow, htup⟩ := I.placed ht
  obtain ⟨-, -, hulow, huup⟩ := I.placed hu
  obtain ⟨regs, hrun⟩ := aesEncrypt_eq (P := P)
    (m := m.withMem (m.session.st.mem.fill t 16 f)) hup 16 (m.phys t) (m.phys u) 0
  refine ⟨regs, hrun.trans ?_⟩
  congr 1
  have hlen : (dataLength 16).toNat / 16 = 1 := by decide
  have hs := ((maps_lookup (n := 16 * 1) Pl.pool_pos.ne' htlow htup).withMem
    (m.session.st.mem.fill t 16 f)).posted regs (jobFor c 16 (m.phys t) (m.phys u) 0)
  have hd := ((maps_lookup (n := 16 * 1) Pl.pool_pos.ne' hulow huup).withMem
    (m.session.st.mem.fill t 16 f)).posted regs (jobFor c 16 (m.phys t) (m.phys u) 0)
  rw [hlen, runJob_eq P.aes hs hd hapart le_rfl]
  have hbytes : ∀ k, k < 16 → jobBytes P.aes (jobFor c 16 (m.phys t) (m.phys u) 0)
      (m.session.st.mem.fill t 16 f) t k = (c.core.encipher P.aes fun i => f i).at k := by
    intro k hk
    have hdiv : k / 16 = 0 := by omega
    have hsrc : (fun x : Fin 16 => (m.session.st.mem.fill t 16 f) (t + 0 * 16 + x)) =
        fun x : Fin 16 => f x := by
      funext x
      rw [Nat.zero_mul, Nat.add_zero, Mem.fill_of_inside _ _ x.isLt]
    rw [jobBytes, hdiv, hsrc]
    rfl
  show (m.posted regs _).withMem _ = (m.posted regs _).withMem _
  congr 1
  exact Mem.fill_congr _ hbytes

/-- Enciphering a block between two scratch blocks. -/
theorem scratch_job (I : Memmgr.Inv P.env m.session bs) (hup : c.Updates) {t u : Nat}
    (ht : (t, 16) ∈ m.session.live) (hu : (u, 16) ∈ m.session.live) (htu : t ≠ u)
    (f : Nat → UInt8) :
    ∃ regs, aesEncrypt P c 16 (m.phys t) (m.phys u) 0
        (m.withMem (m.session.st.mem.fill t 16 f)) =
      .ok (c.afterEncrypt 16 (m.phys t) (m.phys u) 0)
        ((m.posted regs (jobFor c 16 (m.phys t) (m.phys u) 0)).withMem
          ((m.session.st.mem.fill t 16 f).fill u 16 (c.core.encipher P.aes fun i => f i).at)) := by
  have hsym : Std.Symm fun x y : Nat × Nat => x.1 + x.2 ≤ y.1 ∨ y.1 + y.2 ≤ x.1 :=
    ⟨fun _ _ h => Or.symm h⟩
  have hapart : t + 16 ≤ u ∨ u + 16 ≤ t := I.pairwise.2.forall ht hu (by simpa using htu)
  exact block_job I hup (Memmgr.Session.owns_of_mem ht) (Memmgr.Session.owns_of_mem hu) hapart f

/-- A call is over: the heap is in order, the clients hold what they held, the jobs `js` have been
done, and of what a client could use only the `n` bytes at `p` may have changed. -/
structure Settled (P : Platform) (m : Machine) (p n : Nat) (js : List Started) (m' : Machine) :
    Prop where
  inv : ∃ bs, Memmgr.Inv P.env m'.session bs
  live_eq : m'.session.live = m.session.live
  frame : Frame (fun a => m.session.Usable P.env a ∧ (a < p ∨ p + n ≤ a)) js m m'

/-- The job of the last partial block, with its two scratch blocks. -/
def tailJob (m : Machine) (c : FpgaAes) (t u : Nat) : Started :=
  ⟨jobFor c 16 (m.phys t) (m.phys u) 0, (u, 16) :: (t, 16) :: m.session.live⟩

/-- What clients can use they can still use while they hold what they held. -/
theorem Machine.Frame.usable {K : Nat → Prop} {js : List Started} (F : Frame K js m m')
    (hlive : ∀ x ∈ m.session.live, x ∈ m'.session.live) {a : Nat}
    (ha : m.session.Usable P.env a) : m'.session.Usable P.env a :=
  ha.mono hlive F.pool_eq F.poolSize_eq

/-- The heap without the two scratch blocks `t` and `u`: when they are given back, it is
restored. -/
def Lent (P : Platform) (m : Machine) (bs : List Memmgr.Block) (t u : Nat) (m' : Machine)
    (bs' : List Memmgr.Block) : Prop :=
  ∃ pos bs₁, Memmgr.Taken P.env t m.session.st.poolFreePos pos bs bs₁ ∧
    Memmgr.Taken P.env u pos m'.session.st.poolFreePos bs₁ bs'

/-- The two scratch blocks are allocated, apart from all that clients can use. -/
theorem scratch_served (I : Memmgr.Inv P.env m.session bs)
    (hf : 2 * m.session.st.poolSize.toNat + 2 ≤ P.fuel) (hout : m.session.Owns output n)
    (h : Memmgr.Serves P.env m.session.st bs 2) :
    ∃ t u m₁ m₂ bs', memmgrAlloc P 16 m = .ok t m₁ ∧ memmgrAlloc P 16 m₁ = .ok u m₂ ∧
      t ≠ 0 ∧ u ≠ 0 ∧ u ≠ t ∧ Memmgr.Inv P.env m₂.session bs' ∧
      m₂.session.live = (u, 16) :: (t, 16) :: m.session.live ∧
      Frame (m.session.Usable P.env) [] m m₂ ∧ Lent P m bs t u m₂ bs' ∧
      ∀ a, m.session.Usable P.env a → (a < t ∨ t + 16 ≤ a) ∧ (a < u ∨ u + 16 ≤ a) := by
  have h1 : Memmgr.Serves P.env m.session.st bs 1 := h.imp id fun h => by omega
  obtain ⟨t, m₁, bs₁, e₁, ht, I₁, l₁, F₁, more₁, -, T₁⟩ := memmgrAlloc_served I hout hf h1
  have hsub : ∀ x ∈ m.session.live, x ∈ m₁.session.live := fun x hx => by simp [l₁, hx]
  have hf₁ : 2 * m₁.session.st.poolSize.toNat + 2 ≤ P.fuel := by rwa [F₁.poolSize_eq]
  obtain ⟨u, m₂, bs₂, e₂, hu, I₂, l₂, F₂, -, -, T₂⟩ :=
    memmgrAlloc_served I₁ (hout.mono hsub) hf₁ (more₁.2 h)
  have hut : u ≠ t := by
    have hnodup := I₂.pairwise.1
    simp only [l₂, l₁, List.map_cons, List.nodup_cons, List.mem_cons, not_or] at hnodup
    exact hnodup.1.1
  refine ⟨t, u, m₁, m₂, bs₂, e₁, e₂, ht, hu, hut, I₂, by rw [l₂, l₁],
    F₁.trans (F₂.mono fun a => F₁.usable hsub), ⟨_, bs₁, T₁, T₂⟩, fun a ha => ⟨?_, ?_⟩⟩
  · exact I₁.fresh_apart l₁ F₁.pool_eq F₁.poolSize_eq ha
  · exact I₂.fresh_apart l₂ F₂.pool_eq F₂.poolSize_eq (F₁.usable hsub ha)

/-- They go back. -/
theorem scratch_freed (I : Memmgr.Inv P.env m.session bs)
    (hf : m.session.st.poolSize.toNat < P.fuel) {t u : Nat} {live : List (Nat × Nat)} (hut : u ≠ t)
    (hlive : m.session.live = (u, 16) :: (t, 16) :: live) :
    ∃ m₁ m₂ bs', memmgrFree P t m = .ok () m₁ ∧ memmgrFree P u m₁ = .ok () m₂ ∧
      Memmgr.Inv P.env m₂.session bs' ∧ m₂.session.live = live ∧
      Frame (Memmgr.Session.Usable P.env ⟨m.session.st, live⟩) [] m m₂ ∧
      m₂.session.st.poolFreePos = m.session.st.poolFreePos ∧
      ∃ bs₁, Memmgr.Given P.env t bs bs₁ ∧ Memmgr.Given P.env u bs₁ bs' := by
  obtain ⟨m₁, bs₁, e₁, I₁, l₁, F₁, pos₁, G₁⟩ := memmgrFree_held I (p := t) (by simp [hlive]) hf
  have l₁' : m₁.session.live = (u, 16) :: live := by
    rw [l₁, hlive, List.erase_cons_tail (by simpa using hut), List.erase_cons_head]
  have hf₁ : m₁.session.st.poolSize.toNat < P.fuel := by rwa [F₁.poolSize_eq]
  obtain ⟨m₂, bs₂, e₂, I₂, l₂, F₂, pos₂, G₂⟩ := memmgrFree_held I₁ (p := u) (by simp [l₁']) hf₁
  refine ⟨m₁, m₂, bs₂, e₁, e₂, I₂, by rw [l₂, l₁', List.erase_cons_head],
    (F₁.mono fun a ha => ?_).trans (F₂.mono fun a ha => ?_), pos₂.trans pos₁, bs₁, G₁, G₂⟩
  · exact ha.mono (fun x hx => by simp [hlive, show x ∈ live from hx]) rfl rfl
  · exact ha.mono (fun x hx => by simp [l₁', show x ∈ live from hx]) F₁.pool_eq F₁.poolSize_eq

/-- The heap `bs` of `m` is restored in `m'`, as `bs'`. -/
def Restores (P : Platform) (m : Machine) (bs : List Memmgr.Block) (m' : Machine)
    (bs' : List Memmgr.Block) : Prop :=
  Memmgr.Inv P.env m'.session bs' ∧
    Memmgr.Restored bs bs' m.session.st.poolFreePos m'.session.st.poolFreePos

/-- **The last partial block**, when there are scratch blocks. -/
theorem ctrTail_returns (I : Memmgr.Inv P.env m.session bs)
    (hf : 2 * m.session.st.poolSize.toNat + 2 ≤ P.fuel) (hup : c.Updates)
    (hin : m.session.Owns input n) (hout : m.session.Owns output n)
    (h : Memmgr.Serves P.env m.session.st bs 2) :
    ∃ c' m' t u, ctrTail P c input output n m = .ok c' m' ∧
      Settled P m output n [tailJob m c t u] m' ∧ (∃ bs', Restores P m bs m' bs') ∧
      c'.core = { c.core with
        iv := addIvOpenssl c.iv 1, ivIn := addWords c.ivIn 1, lastLocation := n,
        previousStorage := c.core.encipher P.aes (blockOf c.iv) } ∧
      (Mem.Apart input n output n → ∀ i, i < n → m'.session.st.mem (output + i) =
        m.session.st.mem (input + i) ^^^ (c.core.encipher P.aes (blockOf c.iv)).at i) := by
  obtain ⟨t, u, m₁, m₂, bs₂, e₁, e₂, ht, hu, hut, I₂, l₂, F₂, ⟨pos, bs₁, T₁, T₂⟩, hapart⟩ :=
    scratch_served I hf hout h
  have ht₂ : (t, 16) ∈ m₂.session.live := by simp [l₂]
  have hu₂ : (u, 16) ∈ m₂.session.live := by simp [l₂]
  -- the job
  obtain ⟨regs, e₃⟩ := scratch_job I₂ hup ht₂ hu₂ hut.symm fun i => c.iv.getD i 0
  have hjob : (⟨jobFor c 16 (m₂.phys t) (m₂.phys u) 0, m₂.session.live⟩ : Started) =
      tailJob m c t u := by
    rw [tailJob, F₂.phys_eq, F₂.phys_eq, l₂]
  have hivBlock : (fun i : Fin 16 => c.iv.getD i 0) = blockOf c.iv := rfl
  rw [hivBlock] at e₃
  generalize hm₃ : (m₂.posted regs (jobFor c 16 (m₂.phys t) (m₂.phys u) 0)).withMem _ = m₃ at e₃
  have I₃ : Memmgr.Inv P.env m₃.session bs₂ := by
    rw [← hm₃]
    have hcounter := inv_fill I₂ (fun i => c.iv.getD i 0) fun a h1 h2 =>
      (Memmgr.Session.owns_of_mem ht₂).usable h1 h2
    exact inv_fill hcounter _ fun a h1 h2 => (Memmgr.Session.owns_of_mem hu₂).usable h1 h2
  have l₃ : m₃.session.live = (u, 16) :: (t, 16) :: m.session.live := by rw [← hm₃, ← l₂]; rfl
  have F₃ : Frame (m.session.Usable P.env) [tailJob m c t u] m₂ m₃ := by
    rw [← hm₃, ← hjob]
    refine ⟨rfl, rfl, rfl, rfl, rfl, fun a ha => ?_⟩
    exact (Mem.fill_of_outside _ _ (hapart a ha).2).trans
      (Mem.fill_of_outside _ _ (hapart a ha).1)
  have hstorage : (fun i : Fin 16 => m₃.session.st.mem (u + i)) =
      c.core.encipher P.aes (blockOf c.iv) := by
    funext i
    rw [← hm₃]
    refine (Mem.fill_of_inside _ _ i.isLt).trans ?_
    rw [Block.at]
    congr 1
    exact Fin.ext (Nat.mod_eq_of_lt i.isLt)
  -- the scratch blocks go back
  have F := F₂.trans F₃
  obtain ⟨m₄, m₅, bs₅, e₄, e₅, I₅, l₅, F₅, pos₅, bs₄, G₁, G₂⟩ :=
    scratch_freed I₃ (by rw [F.poolSize_eq]; omega) hut l₃
  have F' := F.trans (F₅.mono fun a ha => ha.mono (fun x hx => hx) F.pool_eq F.poolSize_eq)
  -- the bytes
  obtain ⟨f, hxor⟩ := exists_xorMem m₅.session.st.mem output input
    (fun i => (c.core.encipher P.aes (blockOf c.iv)).at i) n
  have hout₅ : m₅.session.Owns output n := hout.mono fun x hx => by rwa [l₅]
  have hfinal : Settled P m output n [tailJob m c t u]
      (m₅.withMem (m₅.session.st.mem.fill output n f)) :=
    ⟨⟨bs₅, inv_fill I₅ f fun a h3 h4 => hout₅.usable h3 h4⟩, l₅,
      (F'.mono fun a ha => ha.1).trans (Frame.fill m₅ f fun a ha => ha.2)⟩
  have hrestores : Restores P m bs (m₅.withMem (m₅.session.st.mem.fill output n f)) bs₅ := by
    have I₆ := inv_fill I₅ f fun a h3 h4 => hout₅.usable h3 h4
    have hpos : m₂.session.st.poolFreePos = m₅.session.st.poolFreePos := by
      rw [pos₅, ← hm₃]
      rfl
    rw [hpos] at T₂
    exact ⟨I₆, I.restored I₆ F'.pool_eq T₁ T₂ G₁ G₂⟩
  refine ⟨{ addIvCipher { c.afterEncrypt 16 (m₂.phys t) (m₂.phys u) 0 with
      previousStorage := c.core.encipher P.aes (blockOf c.iv) } 1 with lastLocation := n },
    m₅.withMem (m₅.session.st.mem.fill output n f), t, u, ?_, hfinal, ⟨bs₅, hrestores⟩, rfl,
    fun hbuffers i hi => ?_⟩
  · rw [ctrTail, bind_of_ok e₁, bind_of_ok e₂, bind_of_ok (copyTo_ok ht _),
      bind_of_ok (lookup_ok t), bind_of_ok (lookup_ok u), phys_withMem, phys_withMem, bind_of_ok e₃,
      bind_of_ok (copyFrom_ok hu), hstorage, bind_of_ok e₄, bind_of_ok e₅]
    rw [← hxor]
    rfl
  · rw [withMem_mem, ← hxor, xorMem_eq _ _ (hbuffers.imp_right Nat.le_of_add_right_le),
      Mem.fill_of_inside _ _ hi, F'.mem_eq _ (hin.usable (by omega) (by omega))]

/-- With no scratch block left the program ends before the job. -/
theorem ctrTail_none (I : Memmgr.Inv P.env m.session bs)
    (hf : 2 * m.session.st.poolSize.toNat + 2 ≤ P.fuel) (hout : m.session.Owns output n)
    (h : ¬Memmgr.Serves P.env m.session.st bs 1) :
    Stops (ctrTail P c input output n) m .segv fun m' => m'.jobs = m.jobs := by
  obtain ⟨m₁, e₁, I₁, l₁, F₁⟩ := memmgrAlloc_refused I hout hf h
  have hf₁ : 2 * m₁.session.st.poolSize.toNat + 2 ≤ P.fuel := by rwa [F₁.poolSize_eq]
  have hout₁ : m₁.session.Owns output n := hout.mono fun x hx => by rwa [l₁]
  obtain ⟨u, m₂, e₂, hjobs⟩ : ∃ u m₂, memmgrAlloc P 16 m₁ = .ok u m₂ ∧ m₂.jobs = m₁.jobs := by
    by_cases h' : Memmgr.Serves P.env m₁.session.st bs 1
    · obtain ⟨u, m₂, _, e₂, -, -, -, F₂, -⟩ := memmgrAlloc_served I₁ hout₁ hf₁ h'
      exact ⟨u, m₂, e₂, by simpa using F₂.jobs_eq⟩
    · obtain ⟨m₂, e₂, -, -, F₂⟩ := memmgrAlloc_refused I₁ hout₁ hf₁ h'
      exact ⟨0, m₂, e₂, by simpa using F₂.jobs_eq⟩
  refine ⟨m₂, ?_, by simpa [hjobs] using F₁.jobs_eq⟩
  rw [ctrTail, bind_of_ok e₁, bind_of_ok e₂, bind_of_error (copyTo_null _)]

/-- With one scratch block left, the end of the last free block that is big enough, the job is
started, and its destination is the image of the null pointer. -/
theorem ctrTail_one (I : Memmgr.Inv P.env m.session bs)
    (hf : 2 * m.session.st.poolSize.toNat + 2 ≤ P.fuel) (hup : c.Updates)
    (hout : m.session.Owns output n) (h1 : Memmgr.Serves P.env m.session.st bs 1)
    (h2 : ¬Memmgr.Serves P.env m.session.st bs 2) :
    Stops (ctrTail P c input output n) m .segv fun m' => ∃ t,
      (∃ b ∈ bs, b.isFree = true ∧ 2 ≤ b.size ∧
        t = b.addr + (b.size - 2) * P.env.hdr + P.env.hdr) ∧
      m'.jobs = m.jobs ++ [⟨jobFor c 16 (m.phys t) (m.phys 0) 0, (t, 16) :: m.session.live⟩] := by
  obtain ⟨t, m₁, bs₁, e₁, ht, I₁, l₁, F₁, more₁, hlast, -⟩ := memmgrAlloc_served I hout hf h1
  have hf₁ : 2 * m₁.session.st.poolSize.toNat + 2 ≤ P.fuel := by rwa [F₁.poolSize_eq]
  obtain ⟨m₂, e₂, I₂, l₂, F₂⟩ := memmgrAlloc_refused I₁
    (hout.mono fun x hx => by simp [l₁, hx]) hf₁ fun h => h2 (more₁.1 h)
  have F₁₂ := F₁.trans (F₂.mono fun a => F₁.usable fun x hx => by simp [l₁, hx])
  obtain ⟨regs, e₃⟩ := aesEncrypt_eq (P := P)
    (m := m₂.withMem (m₂.session.st.mem.fill t 16 fun i => c.iv.getD i 0)) hup 16 (m₂.phys t)
    (m₂.phys 0) 0
  generalize hm₃ : runJob P.aes _ _ _ = m₃ at e₃
  refine ⟨m₃, ?_, t, hlast.resolve_left h2, ?_⟩
  · rw [ctrTail, bind_of_ok e₁, bind_of_ok e₂, bind_of_ok (copyTo_ok ht _),
      bind_of_ok (lookup_ok t), bind_of_ok (lookup_ok 0), phys_withMem, phys_withMem,
      bind_of_ok e₃, bind_of_error copyFrom_null]
  · have hjobs : m₂.jobs = m.jobs := by simpa using F₁₂.jobs_eq
    rw [← hm₃, runJob_jobs, F₁₂.phys_eq, F₁₂.phys_eq, posted, withMem_jobs, hjobs, withMem_live,
      l₂, l₁]

/-! ## The whole blocks -/

/-- The cipher with all parameters to be written. -/
def FpgaAes.updating (c : FpgaAes) : FpgaAes :=
  { c with
    updateIv := true
    updateKey := true
    updateSourceAddress := true
    updateDestAddress := true
    updateNumBytes := true
    updateMode := true }

theorem updating_updates (c : FpgaAes) : c.updating.Updates := ⟨rfl, rfl, rfl, rfl, rfl, rfl⟩

/-- `ctrRest` with its numbers worked out: the counts do not overflow. -/
theorem ctrRest_eq (c : FpgaAes) (input output : Nat) (src dest : UInt32)
    (hlen : len - i < 2 ^ 31) :
    ctrRest P c input len output src dest i = (do
      let c ← aesEncrypt P c.updating ((len - i) / 16 * 16) (src + UInt32.ofNat i)
        (dest + UInt32.ofNat i) 2
      let c := addIvCipher c (UInt32.ofNat ((len - i) / 16))
      if 0 < (len - i) % 16 then
        let c ← ctrTail P c (input + i + (len - i) / 16 * 16) (output + i + (len - i) / 16 * 16)
          ((len - i) % 16)
        return (cInt len, c)
      else
        return (cInt len, c)) := by
  have h1 : cInt (len - i) = ((len - i : Nat) : Int) := cInt_of_lt hlen
  have h2 : ((len - i : Nat) : Int).tmod 16 = (((len - i) % 16 : Nat) : Int) :=
    (Int.ofNat_tmod _ 16).symm
  have h3 : ((len - i : Nat) : Int).tdiv 16 = (((len - i) / 16 : Nat) : Int) :=
    (Int.ofNat_tdiv _ 16).symm
  have h4 : (((len - i) / 16 : Nat) : Int) * 16 = (((len - i) / 16 * 16 : Nat) : Int) := by
    rw [Int.natCast_mul]
    rfl
  have h5 : P.env.sizeT (((len - i) / 16 * 16 : Nat) : Int) = (len - i) / 16 * 16 :=
    Env.sizeT_of_lt (by omega)
  rw [ctrRest, h1, h2, h3, h4, h5, Int.toNat_natCast, Int.toNat_natCast, ofInt_natCast]
  simp only [Int.natCast_pos]
  rfl

theorem phys_add (hpool : m.session.st.pool ≠ 0) (p k : Nat) :
    m.phys (p + k) = m.phys p + UInt32.ofNat k := by
  rw [phys, phys, Memmgr.lookupBufferPhysicalAddress, Memmgr.lookupBufferPhysicalAddress,
    if_neg hpool, if_neg hpool, UInt32.ofNat_add]
  grind

/-- **The job for the whole blocks.** -/
theorem ctr_job (I : Memmgr.Inv P.env m.session bs) (hup : c.Updates) {q : Nat}
    (hq : q * 16 < 2 ^ 32) (hin : m.session.Owns input (16 * q))
    (hout : m.session.Owns output (16 * q)) :
    ∃ regs f, aesEncrypt P c (q * 16) (m.phys input) (m.phys output) 2 m =
      .ok (c.afterEncrypt (q * 16) (m.phys input) (m.phys output) 2)
        ((m.posted regs (jobFor c (q * 16) (m.phys input) (m.phys output) 2)).withMem
          (m.session.st.mem.fill output (16 * q) f)) ∧
      (Mem.Apart input (16 * q) output (16 * q) → ∀ k, k < 16 * q →
        f k = m.session.st.mem (input + k) ^^^
          keystream (c.core.encipher P.aes) (counter c.ivIn.toBytes) k) := by
  obtain ⟨Pl, -, hilow, hiup⟩ := I.placed hin
  obtain ⟨-, -, holow, houp⟩ := I.placed hout
  obtain ⟨regs, hrun⟩ := aesEncrypt_eq (P := P) (m := m) hup (q * 16) (m.phys input)
    (m.phys output) 2
  have hlen : (dataLength (q * 16)).toNat / 16 = q := by
    rw [dataLength, Nat.mul_div_cancel _ (by decide), UInt32.toNat_ofNat', Nat.mod_eq_of_lt hq,
      Nat.mul_div_cancel _ (by decide)]
  have hs := (maps_lookup (m := m) Pl.pool_pos.ne' hilow hiup).posted regs
    (jobFor c (q * 16) (m.phys input) (m.phys output) 2)
  have hd := (maps_lookup (m := m) Pl.pool_pos.ne' holow houp).posted regs
    (jobFor c (q * 16) (m.phys input) (m.phys output) 2)
  rw [hlen] at hrun
  by_cases hapart : Mem.Apart input (16 * q) output (16 * q)
  · refine ⟨regs, _, hrun.trans (congrArg _ (runJob_eq P.aes hs hd hapart le_rfl)),
      fun _ k hk => ?_⟩
    have hpos : input + k / 16 * 16 + k % 16 = input + k := by omega
    have hmode : UInt32.ofInt 2 = 2 := by decide
    rw [jobBytes, Job.block, if_pos (show (jobFor c _ _ _ 2).mode = 2 from hmode)]
    show m.session.st.mem (input + k / 16 * 16 + k % 16) ^^^ _ = _
    rw [hpos]
    rfl
  · obtain ⟨f, hf⟩ := exists_runJob (j := jobFor c (q * 16) (m.phys input) (m.phys output) 2)
      P.aes hd (k := q) le_rfl
    exact ⟨regs, f, hrun.trans (congrArg _ hf), fun h => absurd h hapart⟩

/-- The job of the whole blocks from the byte `i` on. -/
def mainJob (m : Machine) (c : FpgaAes) (input output len i : Nat) : Started :=
  ⟨jobFor c.updating ((len - i) / 16 * 16) (m.phys input + UInt32.ofNat i)
    (m.phys output + UInt32.ofNat i) 2, m.session.live⟩

/-- **The whole blocks**: the heap is as it was. -/
theorem ctr_blocks (I : Memmgr.Inv P.env m.session bs) (c : FpgaAes) (hlen : len - i < 2 ^ 31)
    (hi : i ≤ len) (hin : m.session.Owns input len) (hout : m.session.Owns output len) :
    ∃ c' m', aesEncrypt P c.updating ((len - i) / 16 * 16) (m.phys input + UInt32.ofNat i)
        (m.phys output + UInt32.ofNat i) 2 m = .ok c' m' ∧
      c'.core = c.core ∧ c'.Updates ∧
      Memmgr.Inv P.env m'.session bs ∧ m'.session.live = m.session.live ∧
      (∀ k, Memmgr.Serves P.env m'.session.st bs k ↔ Memmgr.Serves P.env m.session.st bs k) ∧
      Frame (fun a => m.session.Usable P.env a ∧
        (a < output + i ∨ output + i + (len - i) / 16 * 16 ≤ a)) [mainJob m c input output len i]
        m m' ∧
      (Mem.Apart input len output len → ∀ k, k < (len - i) / 16 * 16 →
        m'.session.st.mem (output + i + k) = m.session.st.mem (input + i + k) ^^^
          keystream (c.core.encipher P.aes) (counter c.ivIn.toBytes) k) := by
  have hpool := (I.placed hin).1.pool_pos.ne'
  have hq : i + 16 * ((len - i) / 16) ≤ len := by omega
  have hout' := hout.part hq
  obtain ⟨regs, f, hrun, hf⟩ := ctr_job I (updating_updates c) (q := (len - i) / 16) (by omega)
    (hin.part hq) hout'
  rw [phys_add hpool, phys_add hpool] at hrun
  refine ⟨_, _, hrun, rfl, updating_updates c, inv_fill I f fun a h1 h2 => hout'.usable h1 h2, rfl,
    fun k => Iff.rfl, ⟨rfl, rfl, rfl, rfl, rfl, fun a ha => ?_⟩, fun hapart k hk => ?_⟩
  · exact Mem.fill_of_outside _ _ (by omega)
  · refine (Mem.fill_of_inside _ _ (by omega)).trans ?_
    exact hf (by unfold Mem.Apart at *; omega) k (by omega)

/-- The job moves bytes of the two buffers, from corresponding places, or between two scratch
blocks. -/
inductive Proper (m : Machine) (input output len : Nat) (s : Started) : Prop
  | buffers {i : Nat} (hlen : i + s.job.numBytes.toNat ≤ len)
      (hsource : s.job.source = m.phys input + UInt32.ofNat i)
      (hdest : s.job.dest = m.phys output + UInt32.ofNat i)
  | scratch {t u : Nat} (hlen : s.job.numBytes = 16) (hsource : s.job.source = m.phys t)
      (ht : (t, 16) ∈ s.live) (hdest : s.job.dest = m.phys u) (hu : (u, 16) ∈ s.live)

theorem Proper.of_phys {s : Started} (h : Proper m' input output len s)
    (hphys : ∀ p, m'.phys p = m.phys p) : Proper m input output len s := by
  cases h with
  | buffers hlen hsource hdest =>
    exact .buffers hlen (by rw [hsource, hphys]) (by rw [hdest, hphys])
  | scratch hlen hsource ht hdest hu =>
    exact .scratch hlen (by rw [hsource, hphys]) ht (by rw [hdest, hphys]) hu

theorem toNat_dataLength {q : Nat} (hq : q * 16 < 2 ^ 32) :
    (dataLength (q * 16)).toNat = q * 16 := by
  rw [dataLength, Nat.mul_div_cancel _ (by decide), UInt32.toNat_ofNat', Nat.mod_eq_of_lt hq]

theorem mainJob_proper (m : Machine) (c : FpgaAes) (hlen : len - i < 2 ^ 31) (hi : i ≤ len) :
    Proper m input output len (mainJob m c input output len i) := by
  have hq := toNat_dataLength (q := (len - i) / 16) (by omega)
  exact .buffers (i := i) (by simp only [mainJob, jobFor, hq]; omega) rfl rfl

theorem tailJob_proper (hframe : ∀ p, m'.phys p = m.phys p) (c : FpgaAes) (t u : Nat) :
    Proper m input output len (tailJob m' c t u) :=
  .scratch (t := t) (u := u) (by simp only [tailJob, jobFor]; decide) (hframe t)
    (by simp [tailJob]) (hframe u) (by simp [tailJob])

/-- What the cipher emits when it begins with a new block. -/
theorem emit_of_zero (hloc : c.lastLocation = 0) (n k : Nat) : c.core.emit P.aes n k =
    if k < n / 16 * 16 then keystream (c.core.encipher P.aes) (counter c.ivIn.toBytes) k
    else (c.core.encipher P.aes (blockOf (c.core.tailIv n))).at k := by
  have h0 : c.core.leftover n = 0 := Core.leftover_of_zero hloc
  rw [Core.emit, h0, if_neg (Nat.not_lt_zero k), Nat.sub_zero, Core.fullBlocks, h0, Nat.sub_zero,
    Nat.mul_comm]
  rfl

/-- **The whole blocks and the last partial one**, when there are scratch blocks or none are
needed. -/
theorem ctrRest_returns (I : Memmgr.Inv P.env m.session bs)
    (hf : 2 * m.session.st.poolSize.toNat + 2 ≤ P.fuel) (hlen : len - i < 2 ^ 31) (hi : i ≤ len)
    (hin : m.session.Owns input len) (hout : m.session.Owns output len)
    (hloc : c.lastLocation = 0)
    (h : (len - i) % 16 = 0 ∨ Memmgr.Serves P.env m.session.st bs 2) :
    ∃ c' m' js, ctrRest P c input len output (m.phys input) (m.phys output) i m =
        .ok (cInt len, c') m' ∧
      Settled P m (output + i) (len - i) js m' ∧ (∀ s ∈ js, Proper m input output len s) ∧
      c'.core = c.core.advance P.aes (len - i) ∧
      (Mem.Apart input len output len → ∀ k, k < len - i →
        m'.session.st.mem (output + i + k) =
          m.session.st.mem (input + i + k) ^^^ c.core.emit P.aes (len - i) k) := by
  obtain ⟨c₁, m₁, e₁, hcore, hup, I₁, l₁, hserves, F₁, hbytes⟩ := ctr_blocks I c hlen hi hin hout
  have h0 : c.core.leftover (len - i) = 0 := Core.leftover_of_zero hloc
  have hfull : c.core.fullBlocks (len - i) = (len - i) / 16 := by rw [Core.fullBlocks, h0]; rfl
  have hextra : c.core.extraBytes (len - i) = (len - i) % 16 := by rw [Core.extraBytes, h0]; rfl
  have hF : Frame (fun a => m.session.Usable P.env a ∧
      (a < output + i ∨ output + i + (len - i) ≤ a))
      [mainJob m c input output len i] m m₁ := F₁.mono fun a ha => ⟨ha.1, by omega⟩
  rw [ctrRest_eq c input output _ _ hlen, bind_of_ok e₁]
  generalize hc₂ : addIvCipher c₁ (UInt32.ofNat ((len - i) / 16)) = c₂
  have hcore₂ : c₂.core = { c.core with
      iv := c.core.tailIv (len - i), ivIn := c.core.tailWords (len - i) } := by
    rw [← hc₂, Core.tailIv, Core.tailWords, hfull, ← hcore]
    rfl
  by_cases hr : (len - i) % 16 = 0
  · refine ⟨c₂, m₁, _, by simp only [hr, lt_irrefl, if_false]; rfl, ⟨⟨bs, I₁⟩, l₁, hF⟩, ?_, ?_, ?_⟩
    · intro s hs
      rw [List.mem_singleton.1 hs]
      exact mainJob_proper m c hlen hi
    · rw [hcore₂, Core.advance, if_pos (hextra.trans hr), h0]
      have hloc' : c.core.lastLocation = 0 := hloc
      dsimp only
      rw [hloc']
    · intro hapart k hk
      rw [hbytes hapart k (by omega), emit_of_zero hloc, if_pos (by omega)]
  · -- the tail
    have hlive : ∀ x ∈ m.session.live, x ∈ m₁.session.live := fun x hx => by rwa [l₁]
    have hq : i + (len - i) / 16 * 16 + (len - i) % 16 ≤ len := by omega
    have hin₁ : m₁.session.Owns (input + i + (len - i) / 16 * 16) ((len - i) % 16) := by
      rw [Nat.add_assoc]
      exact (hin.part hq).mono hlive
    have hout₁ : m₁.session.Owns (output + i + (len - i) / 16 * 16) ((len - i) % 16) := by
      rw [Nat.add_assoc]
      exact (hout.part hq).mono hlive
    obtain ⟨c', m', t, u, e₂, S, -, hcore', htail⟩ := ctrTail_returns (c := c₂) I₁
      (by rwa [F₁.poolSize_eq]) (by rw [← hc₂]; exact hup) hin₁ hout₁
      ((hserves 2).2 (h.resolve_left hr))
    have hF' : Frame (fun a => m.session.Usable P.env a ∧
        (a < output + i ∨ output + i + (len - i) ≤ a)) [tailJob m₁ c₂ t u] m₁ m' :=
      S.frame.mono fun a ha => ⟨F₁.usable hlive ha.1, by omega⟩
    refine ⟨c', m', _, ?_, ⟨S.inv, S.live_eq.trans l₁, hF.trans hF'⟩, ?_, ?_, ?_⟩
    · rw [if_pos (Nat.pos_of_ne_zero hr), bind_of_ok e₂]
      rfl
    · intro s hs
      rcases List.mem_append.1 hs with hs | hs
      · rw [List.mem_singleton.1 hs]
        exact mainJob_proper m c hlen hi
      · rw [List.mem_singleton.1 hs]
        exact tailJob_proper (fun p => F₁.phys_eq p) c₂ t u
    · rw [hcore', hcore₂, Core.advance, if_neg (by rwa [hextra]), hextra]
      have hiv₂ : c₂.iv = c.core.tailIv (len - i) := congrArg Core.iv hcore₂
      have hwords₂ : c₂.ivIn = c.core.tailWords (len - i) := congrArg Core.ivIn hcore₂
      rw [hiv₂, hwords₂]
      rfl
    · intro hapart k hk
      have hiv₂ : c₂.iv = c.core.tailIv (len - i) := congrArg Core.iv hcore₂
      have hkey₂ : c₂.core.encipher P.aes = c.core.encipher P.aes := by rw [hcore₂]; rfl
      rw [emit_of_zero hloc]
      by_cases hkq : k < (len - i) / 16 * 16
      · rw [if_pos hkq, ← hbytes hapart k hkq]
        exact S.frame.mem_eq _ ⟨F₁.usable hlive (hout.usable (by omega) (by omega)), by omega⟩
      · have hk1 : output + i + (len - i) / 16 * 16 + (k - (len - i) / 16 * 16) =
            output + i + k := by
          omega
        have hk2 : input + i + (len - i) / 16 * 16 + (k - (len - i) / 16 * 16) = input + i + k := by
          omega
        have hk3 : (k - (len - i) / 16 * 16) % 16 = k % 16 := by omega
        have h1 := htail (by unfold Mem.Apart at *; omega) (k - (len - i) / 16 * 16) (by omega)
        rw [hk1, hk2, hiv₂, hkey₂, F₁.mem_eq (input + i + k)
          ⟨hin.usable (by omega) (by omega), by unfold Mem.Apart at hapart; omega⟩] at h1
        rw [h1, if_neg hkq]
        simp only [Block.at, hk3]

/-! ## The whole call -/

/-- The cipher after the leftover of the last block has been used. -/
def FpgaAes.begun (c : FpgaAes) (src : UInt32) (len : Nat) : FpgaAes :=
  { c with
    bytesProcessed := c.bytesProcessed + UInt32.ofNat len
    currentBlockStart := if c.currentBlockStart = 0 then src else c.currentBlockStart
    lastLocation := if 16 ≤ c.lastLocation + c.core.leftover len then 0
      else c.lastLocation + c.core.leftover len }

theorem begun_core (c : FpgaAes) (src : UInt32) (len : Nat) :
    (c.begun src len).core = c.core.used (c.core.leftover len) := rfl

/-- **What is left of the last block**: it is combined with the first bytes, and the call goes on
behind them. -/
theorem ctrHw_leftover (P : Platform) (m : Machine) (c : FpgaAes) (input output len : Nat)
    (src dest : UInt32) :
    ∃ f, aesEncryptCtrHw P c input len output src dest m =
        (if 0 < c.lastLocation ∧ len ≤ c.core.leftover len then pure (cInt len, c.begun src len)
          else ctrRest P (c.begun src len) input len output src dest (c.core.leftover len))
          (m.withMem (m.session.st.mem.fill output (c.core.leftover len) f)) ∧
      (Mem.Apart input len output len → ∀ k, k < c.core.leftover len → f k =
        m.session.st.mem (input + k) ^^^ c.previousStorage.at (c.lastLocation + k)) := by
  by_cases hloc : 0 < c.lastLocation
  · have hn : (if 16 - c.lastLocation < len then 16 - c.lastLocation else len) =
        c.core.leftover len := by
      rw [Core.leftover, if_pos (show 0 < c.core.lastLocation from hloc)]
      show _ = min (16 - c.lastLocation) len
      split <;> omega
    have hle : c.core.leftover len ≤ len := by
      rw [← hn]
      split <;> omega
    obtain ⟨f, hf⟩ := exists_xorMem m.session.st.mem output input
      (fun i => c.previousStorage.at (c.lastLocation + i)) (c.core.leftover len)
    have e₁ : xorLoop output input (fun i => c.previousStorage.at (c.lastLocation + i))
        (c.core.leftover len) m =
          .ok () (m.withMem (m.session.st.mem.fill output (c.core.leftover len) f)) := by
      rw [xorLoop, hf]
    refine ⟨f, ?_, fun hapart k hk => ?_⟩
    · rw [aesEncryptCtrHw, if_pos hloc]
      dsimp only
      rw [hn, bind_of_ok e₁]
      by_cases hshort : len ≤ c.core.leftover len
      · rw [if_pos hshort, if_pos (And.intro hloc hshort)]
        rfl
      · rw [if_neg hshort, if_neg (mt And.right hshort)]
        rfl
    · have hk' : Mem.Apart input (c.core.leftover len) output (c.core.leftover len) := by
        unfold Mem.Apart at *
        omega
      rw [xorMem_eq _ _ (hk'.imp_right Nat.le_of_add_right_le)] at hf
      have h1 := congrFun hf (output + k)
      rw [Mem.fill_of_inside _ _ hk, Mem.fill_of_inside _ _ hk] at h1
      exact h1.symm
  · have h0 : c.core.leftover len = 0 := Core.leftover_of_zero (by
      show c.lastLocation = 0
      omega)
    have hloc0 : c.lastLocation = 0 := by omega
    refine ⟨fun _ => 0, ?_, fun _ k hk => absurd hk (by omega)⟩
    rw [aesEncryptCtrHw, if_neg hloc, if_neg (mt And.left hloc), FpgaAes.begun, h0, Mem.fill_zero,
      withMem_self, hloc0]
    rfl

theorem leftover_le (c : Core) (len : Nat) : c.leftover len ≤ len := by
  rw [Core.leftover]
  split <;> omega

/-- **A call returns** when there are scratch blocks or none are needed.  The heap is in order
again, nothing has changed but the output, and that is the input combined with what the cipher
emits. -/
theorem ctrHw_returns (I : Memmgr.Inv P.env m.session bs)
    (hf : 2 * m.session.st.poolSize.toNat + 2 ≤ P.fuel) (hlen : len - c.core.leftover len < 2 ^ 31)
    (hin : m.session.Owns input len) (hout : m.session.Owns output len)
    (hloc : c.lastLocation < 16)
    (h : c.core.extraBytes len = 0 ∨ Memmgr.Serves P.env m.session.st bs 2) :
    ∃ c' m' js, aesEncryptCtrHw P c input len output (m.phys input) (m.phys output) m =
        .ok (cInt len, c') m' ∧
      Settled P m output len js m' ∧ (∀ s ∈ js, Proper m input output len s) ∧
      c'.core = c.core.advance P.aes len ∧
      (Mem.Apart input len output len → ∀ k, k < len → m'.session.st.mem (output + k) =
        m.session.st.mem (input + k) ^^^ c.core.emit P.aes len k) := by
  obtain ⟨f, hrun, hbytes⟩ := ctrHw_leftover P m c input output len (m.phys input) (m.phys output)
  have hle := leftover_le c.core len
  have I₁ : Memmgr.Inv P.env
      (m.withMem (m.session.st.mem.fill output (c.core.leftover len) f)).session bs :=
    inv_fill I f fun a h1 h2 => hout.usable h1 (by omega)
  have F₁ : Frame (fun a => m.session.Usable P.env a ∧ (a < output ∨ output + len ≤ a)) [] m
      (m.withMem (m.session.st.mem.fill output (c.core.leftover len) f)) :=
    Frame.fill m f fun a ha => by omega
  rw [hrun]
  by_cases hshort : 0 < c.lastLocation ∧ len ≤ c.core.leftover len
  · refine ⟨c.begun (m.phys input) len, _, [], by rw [if_pos hshort]; rfl,
      ⟨⟨bs, I₁⟩, rfl, F₁⟩, by simp, ?_, fun hapart k hk => ?_⟩
    · have hall : c.core.leftover len = len := by omega
      rw [begun_core, Core.advance_of_short hloc hshort.2 hshort.1, hall]
    · rw [Core.emit, if_pos (by omega), withMem_mem, Mem.fill_of_inside _ _ (by omega)]
      exact hbytes hapart k (by omega)
  · have hgo : c.core.leftover len < len ∨ c.core.lastLocation = 0 := by
      have : ¬(0 < c.core.lastLocation ∧ len ≤ c.core.leftover len) := hshort
      omega
    have hextra : c.core.extraBytes len = (len - c.core.leftover len) % 16 := rfl
    obtain ⟨c', m', js, e₂, S, hjobs, hcore, htail⟩ := ctrRest_returns
      (c := c.begun (m.phys input) len) I₁ hf hlen hle hin hout
      (Core.used_leftover hloc hgo).1 (by rw [← hextra]; exact h)
    refine ⟨c', m', js, by rw [if_neg hshort]; exact e₂,
      ⟨S.inv, S.live_eq, F₁.trans (S.frame.mono fun a ha => ⟨ha.1, by omega⟩)⟩,
      fun s hs => (hjobs s hs).of_phys fun p => rfl, ?_, ?_⟩
    · rw [hcore, begun_core, Core.advance_used hloc hgo]
    · intro hapart k hk
      by_cases hkl : k < c.core.leftover len
      · have h1 := S.frame.mem_eq (output + k)
          ⟨hout.usable (by omega) (by omega), by omega⟩
        rw [h1, Core.emit, if_pos hkl, withMem_mem, Mem.fill_of_inside _ _ hkl]
        exact hbytes hapart k hkl
      · have h1 := htail hapart (k - c.core.leftover len) (by omega)
        have hk1 : output + c.core.leftover len + (k - c.core.leftover len) = output + k := by omega
        have hk2 : input + c.core.leftover len + (k - c.core.leftover len) = input + k := by omega
        have hk3 : c.core.leftover len + (k - c.core.leftover len) = k := by omega
        rw [hk1, hk2, begun_core, ← Core.emit_used hloc hgo, hk3, withMem_mem,
          Mem.fill_of_outside _ _ (by unfold Mem.Apart at hapart; omega)] at h1
        exact h1

/-! ## A heap that is too full -/

/-- The scratch block at the end of a free block. -/
def lastScratch (e : Env) (b : Memmgr.Block) : Nat := b.addr + (b.size - 2) * e.hdr + e.hdr

/-- The job that is started when there is one scratch block only: its destination is the image of
the null pointer. -/
def Stray (P : Platform) (m : Machine) (bs : List Memmgr.Block) (s : Started) : Prop :=
  ∃ b ∈ bs, b.isFree = true ∧ 2 ≤ b.size ∧ s.job.source = m.phys (lastScratch P.env b) ∧
    s.job.dest = m.phys 0 ∧ s.job.numBytes = 16 ∧
    s.live = (lastScratch P.env b, 16) :: m.session.live

/-- How a call ends for want of scratch blocks: the whole blocks have been done, and if there was
one scratch block a stray job too. -/
def Starved (P : Platform) (m : Machine) (bs : List Memmgr.Block) (input output len : Nat)
    (m' : Machine) : Prop :=
  ∃ s, Proper m input output len s ∧
    ((¬Memmgr.Serves P.env m.session.st bs 1 ∧ m'.jobs = m.jobs ++ [s]) ∨
      (Memmgr.Serves P.env m.session.st bs 1 ∧
        ∃ s', Stray P m bs s' ∧ m'.jobs = m.jobs ++ [s, s']))

theorem ctrRest_stops (I : Memmgr.Inv P.env m.session bs)
    (hf : 2 * m.session.st.poolSize.toNat + 2 ≤ P.fuel) (c : FpgaAes) (hlen : len - i < 2 ^ 31)
    (hi : i ≤ len) (hin : m.session.Owns input len) (hout : m.session.Owns output len)
    (hr : (len - i) % 16 ≠ 0) (h : ¬Memmgr.Serves P.env m.session.st bs 2) :
    Stops (ctrRest P c input len output (m.phys input) (m.phys output) i) m .segv
      (Starved P m bs input output len) := by
  obtain ⟨c₁, m₁, e₁, -, hup, I₁, l₁, hserves, F₁, -⟩ := ctr_blocks I c hlen hi hin hout
  have hf₁ : 2 * m₁.session.st.poolSize.toNat + 2 ≤ P.fuel := by rwa [F₁.poolSize_eq]
  have hq : i + (len - i) / 16 * 16 + (len - i) % 16 ≤ len := by omega
  have hout₁ : m₁.session.Owns (output + i + (len - i) / 16 * 16) ((len - i) % 16) := by
    rw [Nat.add_assoc]
    exact (hout.part hq).mono fun x hx => by rwa [l₁]
  rw [ctrRest_eq c input output _ _ hlen]
  refine Returns.bind_stops (Q := fun c' m' => c' = c₁ ∧ m' = m₁) ⟨c₁, m₁, e₁, rfl, rfl⟩ ?_
  rintro _ _ ⟨rfl, rfl⟩
  dsimp only
  rw [if_pos (Nat.pos_of_ne_zero hr)]
  refine Stops.bind ?_
  by_cases h1 : Memmgr.Serves P.env m.session.st bs 1
  · refine (ctrTail_one (c := addIvCipher _ (UInt32.ofNat ((len - i) / 16))) I₁ hf₁ hup hout₁
      ((hserves 1).2 h1) fun h2 => h ((hserves 2).1 h2)).mono ?_
    rintro m₂ ⟨t, ⟨b, hb, hfree, hsize, rfl⟩, hjobs⟩
    refine ⟨_, mainJob_proper m c hlen hi, Or.inr ⟨h1, _, ?_, by
      rw [hjobs, F₁.jobs_eq, List.append_assoc]; rfl⟩⟩
    exact ⟨b, hb, hfree, hsize, F₁.phys_eq _, F₁.phys_eq 0, by simp only [jobFor]; decide,
      by rw [l₁]; rfl⟩
  · refine (ctrTail_none I₁ hf₁ hout₁ fun h2 => h1 ((hserves 1).1 h2)).mono ?_
    intro m₂ hjobs
    exact ⟨_, mainJob_proper m c hlen hi, Or.inl ⟨h1, by rw [hjobs, F₁.jobs_eq]⟩⟩

/-- **A call stops** when it needs scratch blocks and there are not two of them. -/
theorem ctrHw_stops (I : Memmgr.Inv P.env m.session bs)
    (hf : 2 * m.session.st.poolSize.toNat + 2 ≤ P.fuel) (hlen : len - c.core.leftover len < 2 ^ 31)
    (hin : m.session.Owns input len) (hout : m.session.Owns output len)
    (hx : c.core.extraBytes len ≠ 0) (h : ¬Memmgr.Serves P.env m.session.st bs 2) :
    Stops (aesEncryptCtrHw P c input len output (m.phys input) (m.phys output)) m .segv
      (Starved P m bs input output len) := by
  obtain ⟨f, hrun, -⟩ := ctrHw_leftover P m c input output len (m.phys input) (m.phys output)
  have hle := leftover_le c.core len
  have hgo : ¬(0 < c.lastLocation ∧ len ≤ c.core.leftover len) := by
    rintro ⟨-, hall⟩
    rw [Core.extraBytes, Nat.sub_eq_zero_of_le hall] at hx
    exact hx rfl
  have I₁ : Memmgr.Inv P.env
      (m.withMem (m.session.st.mem.fill output (c.core.leftover len) f)).session bs :=
    inv_fill I f fun a h1 h2 => hout.usable h1 (by omega)
  obtain ⟨m', e₂, s, hs, hjobs⟩ := ctrRest_stops I₁ hf (c.begun (m.phys input) len) hlen hle
    hin hout
    hx h
  rw [if_neg hgo] at hrun
  exact ⟨m', hrun.trans e₂, s, hs.of_phys fun p => rfl, hjobs⟩

end Zedboard
