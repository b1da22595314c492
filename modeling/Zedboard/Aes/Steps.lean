import Zedboard.Lib.Outcome
import Zedboard.Aes.Bus
import Zedboard.Memmgr.Scratch

/-!
# Single steps on a heap in order

What the steps of a program do to a machine on which the allocator's invariant holds.  Each of them
has its lemma here: it returns, the invariant holds again, and nothing else has changed.  The last
part is `Machine.Frame K js m m'`: the jobs `js` have been started, and no byte of the set `K` is
different.
-/

set_option autoImplicit false

namespace Zedboard
namespace Memmgr

/-! ## What a client may store into -/

namespace Session

/-- The byte is not the allocator's. -/
def Usable (e : Env) (S : Session) (a : Nat) : Prop := S.Held a ∨ S.Foreign e a

/-- The `n` bytes at `p` are part of a payload that a client holds. -/
def Owns (S : Session) (p n : Nat) : Prop := ∃ q k, (q, k) ∈ S.live ∧ q ≤ p ∧ p + n ≤ q + k

namespace Owns

variable {S S' : Session} {p n a k j : Nat}

theorem held (h : S.Owns p n) (h1 : p ≤ a) (h2 : a < p + n) : S.Held a := by
  obtain ⟨q, k, hlive, hlow, hup⟩ := h
  exact ⟨q, k, hlive, by omega, by omega⟩

theorem usable (h : S.Owns p n) {e : Env} (h1 : p ≤ a) (h2 : a < p + n) : S.Usable e a :=
  Or.inl (h.held h1 h2)

theorem part (h : S.Owns p n) (hk : k + j ≤ n) : S.Owns (p + k) j := by
  obtain ⟨q, t, hlive, hlow, hup⟩ := h
  exact ⟨q, t, hlive, by omega, by omega⟩

theorem mono (h : S.Owns p n) (hsub : ∀ x ∈ S.live, x ∈ S'.live) : S'.Owns p n := by
  obtain ⟨q, k, hlive, hlow, hup⟩ := h
  exact ⟨q, k, hsub _ hlive, hlow, hup⟩

end Owns

theorem owns_of_mem {S : Session} {p n : Nat} (h : (p, n) ∈ S.live) : S.Owns p n :=
  ⟨p, n, h, le_rfl, le_rfl⟩

end Session

namespace Inv

variable {e : Env} {S : Session} {bs : List Block} {p n : Nat}

/-- Where there is a payload there is a pool, and room for a scratch block. -/
theorem placed (I : Inv e S bs) (h : S.Owns p n) :
    Placed e S.st.pool S.st.poolSize ∧ 16 ≤ S.st.poolSize.toNat ∧ S.st.pool ≤ p ∧
      p + n ≤ S.st.pool + S.st.poolSize.toNat := by
  obtain ⟨q, k, hlive, hlow, hup⟩ := h
  obtain ⟨h1, h2, -⟩ := I.payload hlive
  obtain ⟨l, b, r, rfl, -, hbp, hlen⟩ := I.exists_block hlive
  obtain ⟨P, L⟩ := I.layout (Or.inl (by simp))
  have hb := L.bounds (b := b) (by simp)
  have hhdr := e.le_hdr
  exact ⟨⟨P, I.modest P.pool_pos.ne'⟩, by omega, by omega, by omega⟩

/-- Clients may store where they may, any number of bytes. -/
theorem fill (I : Inv e S bs) (f : Nat → UInt8)
    (h : ∀ a, p ≤ a → a < p + n → S.Usable e a) :
    Inv e ⟨{ S.st with mem := S.st.mem.fill p n f }, S.live⟩ bs := by
  refine I.of_mem fun q hq x h1 h2 => Mem.fill_of_outside _ _ ?_
  by_contra hx
  have h3 := I.outside (h x (by omega) (by omega)) hq
  omega

end Inv

/-- With no pointer twice in the ledger, a pointer tells its entry. -/
theorem eraseP_fst {l : List (Nat × Nat)} {p n : Nat} (hl : (l.map Prod.fst).Nodup)
    (hp : (p, n) ∈ l) : l.eraseP (fun x => x.1 = p) = l.erase (p, n) := by
  induction l with
  | nil => rfl
  | cons x l ih =>
    rw [List.map_cons, List.nodup_cons] at hl
    rcases List.mem_cons.1 hp with rfl | hp
    · simp
    · have hx : x.1 ≠ p := fun h => hl.1 (h ▸ List.mem_map_of_mem hp)
      rw [List.eraseP_cons_of_neg (by simpa using hx), ih hl.2 hp,
        List.erase_cons_tail (by simpa using fun h => hx (congrArg Prod.fst h))]

end Memmgr

/-! ## Frames -/

namespace Machine

/-- The physical address of a pointer. -/
abbrev phys (m : Machine) (p : Nat) : UInt32 := Memmgr.lookupBufferPhysicalAddress m.session.st p

theorem phys_withMem (m : Machine) (mem : Mem) (p : Nat) : (m.withMem mem).phys p = m.phys p := rfl

/-- Clients may store where they may. -/
theorem inv_fill {e : Env} {m : Machine} {bs : List Memmgr.Block} {p n : Nat}
    (I : Memmgr.Inv e m.session bs) (f : Nat → UInt8)
    (h : ∀ a, p ≤ a → a < p + n → m.session.Usable e a) :
    Memmgr.Inv e (m.withMem (m.session.st.mem.fill p n f)).session bs := I.fill f h

/-- From `m` to `m'` the jobs `js` have been started, and no byte of the set `K` has changed. -/
structure Frame (K : Nat → Prop) (js : List Started) (m m' : Machine) : Prop where
  pool_eq : m'.session.st.pool = m.session.st.pool
  poolSize_eq : m'.session.st.poolSize = m.session.st.poolSize
  baseAddress_eq : m'.session.st.baseAddress = m.session.st.baseAddress
  dark_eq : m'.dark = m.dark
  jobs_eq : m'.jobs = m.jobs ++ js
  mem_eq : ∀ a, K a → m'.session.st.mem a = m.session.st.mem a

namespace Frame

variable {K K' : Nat → Prop} {js js' : List Started} {m m' m'' : Machine}

theorem trans (h : Frame K js m m') (h' : Frame K js' m' m'') : Frame K (js ++ js') m m'' where
  pool_eq := h'.pool_eq.trans h.pool_eq
  poolSize_eq := h'.poolSize_eq.trans h.poolSize_eq
  baseAddress_eq := h'.baseAddress_eq.trans h.baseAddress_eq
  dark_eq := h'.dark_eq.trans h.dark_eq
  jobs_eq := by rw [h'.jobs_eq, h.jobs_eq, List.append_assoc]
  mem_eq a ha := (h'.mem_eq a ha).trans (h.mem_eq a ha)

theorem mono (h : Frame K js m m') (hK : ∀ a, K' a → K a) : Frame K' js m m' :=
  { h with mem_eq := fun a ha => h.mem_eq a (hK a ha) }

theorem phys_eq (h : Frame K js m m') (p : Nat) : m'.phys p = m.phys p := by
  rw [phys, phys, Memmgr.lookupBufferPhysicalAddress, Memmgr.lookupBufferPhysicalAddress,
    h.pool_eq, h.baseAddress_eq]

/-- Storing outside `K`. -/
theorem fill (m : Machine) {p n : Nat} (f : Nat → UInt8) (hK : ∀ a, K a → a < p ∨ p + n ≤ a) :
    Frame K [] m (m.withMem (m.session.st.mem.fill p n f)) :=
  ⟨rfl, rfl, rfl, rfl, by simp, fun a ha => Mem.fill_of_outside _ _ (hK a ha)⟩

/-- What the allocator does. -/
theorem of_kept {e : Env} {bs : List Memmgr.Block} {s : Memmgr.State} {live : List (Nat × Nat)}
    (I : Memmgr.Inv e m.session bs) (h : Memmgr.Kept e bs m.session.st s) :
    Frame (m.session.Usable e) [] m { m with session := ⟨s, live⟩ } where
  pool_eq := h.pool_eq
  poolSize_eq := h.poolSize_eq
  baseAddress_eq := by rw [h.statics]
  dark_eq := rfl
  jobs_eq := by simp
  mem_eq a ha := by
    rcases ha with ⟨p, n, hlive, h1, h2⟩ | ⟨h1, h2⟩
    · obtain ⟨l, b, r, rfl, hreq, hbp, hlen⟩ := I.exists_block hlive
      have hheld : b.isFree = false := by rw [Memmgr.Block.isFree, hreq]; rfl
      exact h.payload b (by simp) hheld a (by omega) (by omega)
    · exact h.foreign a h1 h2

end Frame
end Machine

/-! ## The allocator -/

namespace Prog

open Machine

variable {P : Platform} {m : Machine} {bs : List Memmgr.Block} {p n : Nat}

/-- A request for a scratch block that is served. -/
theorem memmgrAlloc_served (I : Memmgr.Inv P.env m.session bs) (hown : m.session.Owns p n)
    (hf : 2 * m.session.st.poolSize.toNat + 2 ≤ P.fuel)
    (h : Memmgr.Serves P.env m.session.st bs 1) :
    ∃ q m' bs', memmgrAlloc P 16 m = .ok q m' ∧ q ≠ 0 ∧ Memmgr.Inv P.env m'.session bs' ∧
      m'.session.live = (q, 16) :: m.session.live ∧
      Frame (m.session.Usable P.env) [] m m' ∧
      (Memmgr.Serves P.env m'.session.st bs' 1 ↔ Memmgr.Serves P.env m.session.st bs 2) ∧
      (Memmgr.Serves P.env m.session.st bs 2 ∨ ∃ b ∈ bs, b.isFree = true ∧ 2 ≤ b.size ∧
        q = b.addr + (b.size - 2) * P.env.hdr + P.env.hdr) ∧
      Memmgr.Taken P.env q m.session.st.poolFreePos m'.session.st.poolFreePos bs bs' := by
  obtain ⟨Pl, h16, -, -⟩ := I.placed hown
  obtain ⟨q, s', bs', halloc, hq, I', K, hmore, hlast, T⟩ := I.scratch_served P.fuel Pl h16 hf h
  refine ⟨q, { m with session := ⟨s', (q, 16) :: m.session.live⟩ }, bs', ?_, hq, I', rfl,
    Frame.of_kept I K, hmore, hlast, T⟩
  simp only [memmgrAlloc, halloc, if_neg hq]

/-- A request that is refused. -/
theorem memmgrAlloc_refused (I : Memmgr.Inv P.env m.session bs) (hown : m.session.Owns p n)
    (hf : 2 * m.session.st.poolSize.toNat + 2 ≤ P.fuel)
    (h : ¬Memmgr.Serves P.env m.session.st bs 1) :
    ∃ m', memmgrAlloc P 16 m = .ok 0 m' ∧ Memmgr.Inv P.env m'.session bs ∧
      m'.session.live = m.session.live ∧ Frame (m.session.Usable P.env) [] m m' := by
  obtain ⟨Pl, h16, -, -⟩ := I.placed hown
  obtain ⟨s', halloc, I', K⟩ := I.scratch_refused P.fuel Pl h16 hf h
  refine ⟨{ m with session := ⟨s', m.session.live⟩ }, ?_, I', rfl, Frame.of_kept I K⟩
  simp only [memmgrAlloc, halloc, if_pos]

/-- Freeing a scratch block. -/
theorem memmgrFree_held (I : Memmgr.Inv P.env m.session bs) (hp : (p, 16) ∈ m.session.live)
    (hf : m.session.st.poolSize.toNat < P.fuel) :
    ∃ m' bs', memmgrFree P p m = .ok () m' ∧ Memmgr.Inv P.env m'.session bs' ∧
      m'.session.live = m.session.live.erase (p, 16) ∧
      Frame (m.session.Usable P.env) [] m m' ∧
      m'.session.st.poolFreePos = m.session.st.poolFreePos ∧ Memmgr.Given P.env p bs bs' := by
  obtain ⟨s', bs', hfree, I', K, hpos, G⟩ := I.scratch_given P.fuel hp hf
  refine ⟨{ m with session := ⟨s', m.session.live.erase (p, 16)⟩ }, bs', ?_, I', rfl,
    Frame.of_kept I K, hpos, G⟩
  simp only [memmgrFree, hfree, Memmgr.eraseP_fst I.pairwise.1 hp]

/-! ## The processor -/

theorem copyTo_ok (hp : p ≠ 0) (f : Nat → UInt8) :
    copyTo p n f m = .ok () (m.withMem (m.session.st.mem.fill p n f)) := by
  rw [copyTo, if_neg fun h => hp h.1]

theorem copyFrom_ok (hp : p ≠ 0) :
    copyFrom p m = .ok (fun i : Fin 16 => m.session.st.mem (p + i)) m := by
  rw [copyFrom, if_neg hp]

/-- Nothing is stored through the null pointer, and nothing read. -/
theorem copyTo_null (f : Nat → UInt8) : copyTo 0 16 f m = .error .segv m := rfl

theorem copyFrom_null : copyFrom 0 m = .error .segv m := rfl

theorem lookup_ok (p : Nat) : lookup p m = .ok (m.phys p) m := rfl

/-- The loop stores into the output only. -/
theorem exists_xorMem (mem : Mem) (output input : Nat) (ks : Nat → UInt8) (n : Nat) :
    ∃ f, xorMem mem output input ks n = mem.fill output n f := by
  induction n with
  | zero => exact ⟨fun _ => 0, by rw [xorMem, Mem.fill_zero]⟩
  | succ n ih =>
    obtain ⟨f, hf⟩ := ih
    refine ⟨Function.update f n (xorMem mem output input ks n (input + n) ^^^ ks n), ?_⟩
    rw [xorMem, Mem.fill_succ, Function.update_self, hf]
    congr 1
    exact Mem.fill_congr _ fun i hi => (Function.update_of_ne (by omega) _ _).symm

/-- It stores the combination, unless it overwrites input that is still to be read. -/
theorem xorMem_eq (mem : Mem) {output input n : Nat} (ks : Nat → UInt8)
    (h : input + n ≤ output ∨ output ≤ input) :
    xorMem mem output input ks n = mem.fill output n fun i => mem (input + i) ^^^ ks i := by
  suffices hk : ∀ k, k ≤ n →
      xorMem mem output input ks k = mem.fill output k fun i => mem (input + i) ^^^ ks i from
    hk n le_rfl
  intro k
  induction k with
  | zero => intro _; rw [xorMem, Mem.fill_zero]
  | succ k ih =>
    intro hk
    have hin : (mem.fill output k fun i => mem (input + i) ^^^ ks i) (input + k) =
        mem (input + k) := Mem.fill_of_outside _ _ (by omega)
    rw [xorMem, Mem.fill_succ, ih (by omega), hin]

end Prog

/-! ## Jobs -/

namespace Machine

variable {m : Machine} {p n k : Nat}

/-- The machine on which a job has been started. -/
def posted (m : Machine) (regs : Reg → UInt32) (j : Job) : Machine :=
  { m with regs, jobs := m.jobs ++ [⟨j, m.session.live⟩] }

@[simp] theorem posted_busRead (m : Machine) (regs : Reg → UInt32) (j : Job) (a : UInt32) :
    (m.posted regs j).busRead a = m.busRead a := rfl

theorem ByBus.posted (m : Machine) (regs : Reg → UInt32) (j : Job) : ByBus m (m.posted regs j) :=
  ⟨rfl, fun _ _ => rfl⟩

theorem Maps.posted {a : UInt32} (h : m.Maps a p n) (regs : Reg → UInt32) (j : Job) :
    (m.posted regs j).Maps a p n := ⟨h.pool, h.lower, h.upper, h.addr⟩

@[simp] theorem runJob_jobs (aes : Block → Block → Block) (j : Job) (m : Machine) :
    (runJob aes j n m).jobs = m.jobs := by
  induction n with
  | zero => rfl
  | succ n ih => exact ih

/-- A job stores into its destination only, wherever it reads. -/
theorem exists_runJob (aes : Block → Block → Block) {j : Job} (hd : m.Maps j.dest p (16 * n)) :
    k ≤ n → ∃ f, runJob aes j k m = m.withMem (m.session.st.mem.fill p (16 * k) f) := by
  induction k with
  | zero => exact fun _ => ⟨fun _ => 0, by rw [runJob, Nat.mul_zero, Mem.fill_zero, withMem_self]⟩
  | succ k ih =>
    intro hk
    obtain ⟨f, hf⟩ := ih (by omega)
    have hd' := (hd.part (k := 16 * k) (j := 16) (by omega)).withMem
      (m.session.st.mem.fill p (16 * k) f)
    refine ⟨fun i => if i < 16 * k then f i else
      (j.block aes k ((m.withMem (m.session.st.mem.fill p (16 * k) f)).busBlock
        (j.source + UInt32.ofNat (16 * k)))).at (i - 16 * k), ?_⟩
    rw [runJob, hf, hd'.fill, withMem_mem, withMem_withMem, Nat.mul_succ, Mem.fill_append]

end Machine

namespace Prog

open Machine

/-- **A call of `aes_encrypt`** runs the job it was asked for. -/
theorem aesEncrypt_eq {P : Platform} {m : Machine} {c : FpgaAes} (h : c.Updates) (len : Nat)
    (source dest : UInt32) (mode : Int) :
    ∃ regs, aesEncrypt P c len source dest mode m =
      .ok (c.afterEncrypt len source dest mode)
        (runJob P.aes (jobFor c len source dest mode) ((dataLength len).toNat / 16)
          (m.posted regs (jobFor c len source dest mode))) := by
  refine ⟨(aesAccesses c len source dest mode).foldl Access.apply m.regs, ?_⟩
  simp only [aesEncrypt, execute, jobOf_accesses h]
  rfl

end Prog
end Zedboard
