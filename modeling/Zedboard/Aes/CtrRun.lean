import Zedboard.Aes.Stream

/-!
# Counter mode in the software

`Aes_encrypt_ctr_run` does what `Aes_encrypt_ctr_hw` has the core do: it has the core encipher the
counter, block by block, and combines the message with that itself.  The counter is written over the
input for the time of a job, and the input is put back (`ctrRun_returns`).

The two differ in three ways.  The software starts every call with the counter of the cipher, it
leaves the last partial block out, and `incrementIv` goes on to the next byte at `0xff`.
`ctr_paths` says that nothing else keeps them from returning the same.
-/

set_option autoImplicit false

namespace Zedboard

open Machine Prog

variable {P : Platform} {m m' : Machine} {c : FpgaAes} {bs : List Memmgr.Block}
  {input output len n : Nat}

/-! ## The loop -/

/-- The byte at the position `p` of the stream that the software makes from the counter `iv`. -/
def runStream (E : Block → Block) (iv : List UInt8) (p : Nat) : UInt8 :=
  (E (blockOf (incrementIv^[p / 16] iv))).at p

/-- What a round does to the memory: the input is there again. -/
theorem round_mem (mem : Mem) {i o : Nat} (h : i + 16 ≤ o ∨ o + 16 ≤ i) (f g : Nat → UInt8) :
    (((mem.fill i 16 f).fill o 16 g).fill o 16 fun k =>
        ((mem.fill i 16 f).fill o 16 g) (o + k) ^^^ mem (i + k)).fill i 16 (fun k => mem (i + k)) =
      mem.fill o 16 fun k => mem (i + k) ^^^ g k := by
  funext x
  by_cases hi : i ≤ x ∧ x < i + 16
  · obtain ⟨k, rfl⟩ := Nat.exists_eq_add_of_le hi.1
    rw [Mem.fill_of_inside _ _ (by omega), Mem.fill_of_outside _ _ (by omega)]
  · rw [Mem.fill_of_outside _ _ (by omega)]
    by_cases ho : o ≤ x ∧ x < o + 16
    · obtain ⟨k, rfl⟩ := Nat.exists_eq_add_of_le ho.1
      rw [Mem.fill_of_inside _ _ (by omega), Mem.fill_of_inside _ _ (by omega),
        Mem.fill_of_inside _ _ (by omega), UInt8.xor_comm]
    · rw [Mem.fill_of_outside _ _ (by omega), Mem.fill_of_outside _ _ (by omega),
        Mem.fill_of_outside _ _ (by omega), Mem.fill_of_outside _ _ (by omega)]

/-- The next blocks continue the stream. -/
theorem runStream_succ (E : Block → Block) (iv : List UInt8) {p : Nat} (h : 16 ≤ p) :
    runStream E (incrementIv iv) (p - 16) = runStream E iv p := by
  have hdiv : p / 16 = (p - 16) / 16 + 1 := by omega
  have hmod : (p - 16) % 16 = p % 16 := by omega
  simp only [runStream, Block.at, hdiv, hmod, Function.iterate_succ_apply]

/-- **A round**: nothing changes but a block of the output. -/
theorem ctrRunLoop_round (iv : List UInt8) (n : Nat) (I : Memmgr.Inv P.env m.session bs)
    (hup : c.Updates) (hin : m.session.Owns input 16) (hout : m.session.Owns output 16)
    (hapart : input + 16 ≤ output ∨ output + 16 ≤ input) :
    ∃ m', ctrRunLoop P (n + 1) c iv input output (m.phys input) (m.phys output) m =
        ctrRunLoop P n (c.afterEncrypt 16 (m.phys input) (m.phys output) 0) (incrementIv iv)
          (input + 16) (output + 16) (m.phys (input + 16)) (m.phys (output + 16)) m' ∧
      m'.session = (m.withMem (m.session.st.mem.fill output 16 fun k =>
        m.session.st.mem (input + k) ^^^ runStream (c.core.encipher P.aes) iv k)).session := by
  obtain ⟨Pl, -, hilow, -⟩ := I.placed hin
  have hpool := Pl.pool_pos
  have hnull : input ≠ 0 := by omega
  have e₀ : (MonadState.get : Prog Machine) m = .ok m m := rfl
  have e₁ := copyTo_ok (m := m) (n := 16) hnull fun j => iv.getD j 0
  obtain ⟨regs, e₂⟩ := block_job I hup hin hout hapart fun j => iv.getD j 0
  generalize hm₂ : (m.posted regs (jobFor c 16 (m.phys input) (m.phys output) 0)).withMem _ = m₂
    at e₂
  have e₃ : xorLoop output output (fun j => m.session.st.mem (input + j)) 16 m₂ =
      .ok () (m₂.withMem (m₂.session.st.mem.fill output 16 fun j =>
        m₂.session.st.mem (output + j) ^^^ m.session.st.mem (input + j))) := by
    rw [xorLoop, xorMem_eq _ _ (Or.inr le_rfl)]
  generalize hm₃ : m₂.withMem _ = m₃ at e₃
  have e₄ := copyTo_ok (m := m₃) (n := 16) hnull fun j => m.session.st.mem (input + j)
  generalize hm₄ : m₃.withMem _ = m₄ at e₄
  refine ⟨m₄, ?_, ?_⟩
  · rw [ctrRunLoop, bind_of_ok e₀, bind_of_ok e₁, aesEncryptRun, bind_of_ok e₂, bind_of_ok e₃,
      bind_of_ok e₄, phys_add hpool.ne', phys_add hpool.ne']
    rfl
  · have hround := round_mem m.session.st.mem hapart (fun j => iv.getD j 0)
      (c.core.encipher P.aes (blockOf iv)).at
    have hfirst : m.session.st.mem.fill output 16 (fun k =>
        m.session.st.mem (input + k) ^^^ runStream (c.core.encipher P.aes) iv k) =
        m.session.st.mem.fill output 16 fun k =>
          m.session.st.mem (input + k) ^^^ (c.core.encipher P.aes (blockOf iv)).at k := by
      refine Mem.fill_congr _ fun k hk => ?_
      rw [runStream, Nat.div_eq_of_lt hk]
      rfl
    rw [hfirst, ← hround, ← hm₄, ← hm₃, ← hm₂]
    rfl

/-- **The loop of `Aes_encrypt_ctr_run`**, for `n` more blocks: nothing changes but the output. -/
theorem ctrRunLoop_returns : ∀ {n : Nat} {m : Machine} {c : FpgaAes} (iv : List UInt8)
    {input output : Nat}, Memmgr.Inv P.env m.session bs → c.Updates →
    m.session.Owns input (16 * n) → m.session.Owns output (16 * n) →
    (input + 16 * n ≤ output ∨ output + 16 * n ≤ input) →
    ∃ c' m', ctrRunLoop P n c iv input output (m.phys input) (m.phys output) m = .ok c' m' ∧
      c'.core = c.core ∧ c'.Updates ∧
      m'.session = (m.withMem (m.session.st.mem.fill output (16 * n) fun k =>
        m.session.st.mem (input + k) ^^^ runStream (c.core.encipher P.aes) iv k)).session
  | 0, m, c, _, _, _, _, hup, _, _, _ =>
    ⟨c, m, rfl, rfl, hup, by rw [Nat.mul_zero, Mem.fill_zero, withMem_self]⟩
  | n + 1, m, c, iv, input, output, I, hup, hin, hout, hapart => by
    have hin₁ := hin.part (k := 0) (j := 16) (by omega)
    have hout₁ := hout.part (k := 0) (j := 16) (by omega)
    rw [Nat.add_zero] at hin₁ hout₁
    obtain ⟨m₁, hround, hsession⟩ := ctrRunLoop_round iv n I hup hin₁ hout₁ (by omega)
    -- the blocks behind it
    have I₁ : Memmgr.Inv P.env m₁.session bs := by
      rw [hsession]
      exact inv_fill I _ fun a h1 h2 => hout₁.usable h1 h2
    have hphys : ∀ p, m₁.phys p = m.phys p := fun p => by
      rw [phys, hsession]
      rfl
    have hlive : m₁.session.live = m.session.live := by rw [hsession]; rfl
    have hmem : m₁.session.st.mem = m.session.st.mem.fill output 16 fun k =>
        m.session.st.mem (input + k) ^^^ runStream (c.core.encipher P.aes) iv k := by
      rw [hsession]
      rfl
    obtain ⟨c', m', hrest, hcore, hup', hsession'⟩ := ctrRunLoop_returns (n := n)
      (c := c.afterEncrypt 16 (m.phys input) (m.phys output) 0) (incrementIv iv) I₁ hup
      ((hin.part (k := 16) (j := 16 * n) (by omega)).mono fun x hx => by rwa [hlive])
      ((hout.part (k := 16) (j := 16 * n) (by omega)).mono fun x hx => by rwa [hlive]) (by omega)
    rw [hphys, hphys, ← hround] at hrest
    refine ⟨c', m', hrest, hcore, hup', ?_⟩
    have hall : m₁.session.st.mem.fill (output + 16) (16 * n) (fun k =>
        m₁.session.st.mem (input + 16 + k) ^^^
          runStream (c.core.encipher P.aes) (incrementIv iv) k) =
        m.session.st.mem.fill output (16 * (n + 1)) fun k =>
          m.session.st.mem (input + k) ^^^ runStream (c.core.encipher P.aes) iv k := by
      rw [hmem, Mem.fill_append, Nat.mul_succ, Nat.add_comm 16]
      refine Mem.fill_congr _ fun k hk => ?_
      split
      · rfl
      · have hpos : input + 16 + (k - 16) = input + k := by omega
        rw [hpos, Mem.fill_of_outside _ _ (by omega), runStream_succ _ _ (by omega)]
    have hcore' : (c.afterEncrypt 16 (m.phys input) (m.phys output) 0).core = c.core := rfl
    rw [hcore', hall] at hsession'
    rw [hsession', withMem, hsession]
    rfl

/-! ## A call -/

/-- **A call of `Aes_encrypt_ctr_run`** returns 0, with the whole blocks of the message combined
with the stream from the counter of the cipher.  Nothing else has changed, neither the input nor the
counter. -/
theorem ctrRun_returns (I : Memmgr.Inv P.env m.session bs) (hup : c.Updates)
    (hin : m.session.Owns input len) (hout : m.session.Owns output len)
    (hapart : Mem.Apart input len output len) :
    ∃ c' m', aesEncryptCtrRun P c input len output (m.phys input) (m.phys output) m =
        .ok (0, c') m' ∧ c'.core = c.core ∧ c'.Updates ∧
      m'.session = (m.withMem (m.session.st.mem.fill output (16 * (len / 16)) fun k =>
        m.session.st.mem (input + k) ^^^ runStream (c.core.encipher P.aes) c.iv k)).session := by
  unfold Mem.Apart at hapart
  obtain ⟨-, -, hlow, hup'⟩ := I.placed hin
  have hsize := m.session.st.poolSize.toNat_lt
  have hrounds : (cInt (len / 16)).toNat = len / 16 := by
    rw [cInt_of_lt (by omega), Int.toNat_natCast]
  have hin' := hin.part (k := 0) (j := 16 * (len / 16)) (by omega)
  have hout' := hout.part (k := 0) (j := 16 * (len / 16)) (by omega)
  rw [Nat.add_zero] at hin' hout'
  obtain ⟨c', m', hrun, hcore, hupdates, hsession⟩ :=
    ctrRunLoop_returns c.iv I hup hin' hout' (by omega)
  refine ⟨c', m', ?_, hcore, hupdates, hsession⟩
  rw [aesEncryptCtrRun, hrounds, bind_of_ok hrun]
  rfl

/-- What the call leaves in the two buffers. -/
theorem ctrRun_bytes {E : Block → Block} {iv : List UInt8}
    (hapart : Mem.Apart input len output len)
    (h : m'.session = (m.withMem (m.session.st.mem.fill output (16 * (len / 16)) fun k =>
      m.session.st.mem (input + k) ^^^ runStream E iv k)).session) :
    m'.session.st.mem.bytes input len = m.session.st.mem.bytes input len ∧
      (len % 16 = 0 → m'.session.st.mem.bytes output len =
        xorFrom (runStream E iv) 0 (m.session.st.mem.bytes input len)) := by
  unfold Mem.Apart at hapart
  rw [h, withMem_mem]
  refine ⟨Mem.bytes_congr fun x h1 h2 => Mem.fill_of_outside _ _ (by omega), fun hlen => ?_⟩
  refine bytes_eq_xorFrom.2 fun k hk => ?_
  rw [Nat.zero_add, Mem.fill_of_inside _ _ (by omega)]

/-! ## Many calls -/

/-- The stream is in order: the heap is, the cipher has the counter it began with, and each message
of whole blocks has been combined with the stream from there. -/
structure Restarting (P : Platform) (E : Block → Block) (iv : List UInt8)
    (x : Machine × Stream) : Prop where
  inv : ∃ bs, Memmgr.Inv P.env x.1.session bs
  encipher : x.2.cipher.core.encipher P.aes = E
  iv_eq : x.2.cipher.iv = iv
  updates : x.2.cipher.Updates
  output_eq : (∀ d ∈ x.2.messages, d.length % 16 = 0) →
    x.2.output = (x.2.messages.map (xorFrom (runStream E iv) 0)).flatten

variable {E : Block → Block} {iv : List UInt8} {x y : Machine × Stream}
  {Q : FpgaAes → Nat → Prop}

/-- One action keeps it in order. -/
theorem Restarting.step (h : Restarting P E iv x)
    (hstep : StreamStep P (aesEncryptCtrRun P) Q x y) : Restarting P E iv y := by
  obtain ⟨bs, I⟩ := h.inv
  cases hstep with
  | client hop =>
    obtain ⟨bs', I', -⟩ := I.step hop
    exact ⟨⟨bs', I'⟩, h.encipher, h.iv_eq, h.updates, h.output_eq⟩
  | device => exact ⟨⟨bs, I⟩, h.encipher, h.iv_eq, h.updates, h.output_eq⟩
  | @call m m' x c input output len rc hq hin hout hapart hcall =>
    obtain ⟨c', m'', hrun, hcore, hup, hsession⟩ := ctrRun_returns I h.updates hin hout hapart
    rw [hcall] at hrun
    cases hrun
    have hE : c.core.encipher P.aes = E := by rw [hcore]; exact h.encipher
    have hiv : c.iv = iv := (congrArg Core.iv hcore).trans h.iv_eq
    rw [show x.cipher.core.encipher P.aes = E from h.encipher,
      show x.cipher.iv = iv from h.iv_eq] at hsession
    refine ⟨⟨bs, ?_⟩, hE, hiv, hup, fun hwhole => ?_⟩
    · rw [hsession]
      exact inv_fill I _ fun a h1 h2 => hout.usable h1 (by omega)
    · have hbefore := h.output_eq fun d hd => hwhole d (by simp [hd])
      have hlast := hwhole (m.session.st.mem.bytes input len) (by simp)
      rw [Mem.length_bytes] at hlast
      have hbytes := (ctrRun_bytes hapart hsession).2 hlast
      dsimp only at hbefore ⊢
      rw [hbytes, hbefore, List.map_append, List.flatten_append, List.map_cons, List.map_nil,
        List.flatten_singleton]

theorem Restarting.run (h : Restarting P E iv x)
    (hrun : StreamRun P (aesEncryptCtrRun P) Q x y) : Restarting P E iv y := by
  induction hrun with
  | refl => exact h
  | tail _ hstep ih => exact ih.step hstep

/-- A new cipher has the counter it is given. -/
theorem fresh_iv {r : NewReply} {key : List UInt8} {base : UInt32} {mode : Int}
    (hnew : fpgaAesNew r key base iv 16 mode = some c) (hiv : iv.length = 16) : c.iv = iv := by
  rw [fpgaAesNew] at hnew
  split at hnew
  · obtain rfl := Option.some.inj hnew
    exact List.take_of_length_le hiv.le
  · exact absurd hnew (by simp)

/-- A new cipher begins in order. -/
theorem Restarting.fresh {s : Memmgr.State} {buffer : Nat} {length baseAddress base : UInt32}
    {r : NewReply} {key : List UInt8} {mode : Int} (hs : s.session = 0)
    (hp : buffer = 0 ∨ Memmgr.Placed P.env buffer length)
    (hS : Memmgr.Reachable P.env s buffer length baseAddress m.session)
    (hkey : key.length = 16) (hiv : iv.length = 16)
    (hnew : fpgaAesNew r key base iv 16 mode = some c) :
    Restarting P (P.aes (blockOf key)) iv (m, ⟨c, [], []⟩) := by
  obtain ⟨-, -, hkeyIn, hup⟩ := new_eq hnew
  refine ⟨hS.inv hs hp, ?_, fresh_iv hnew hiv, hup, fun _ => rfl⟩
  rw [Core.encipher, show c.core.key = Words.pack key from hkeyIn, toBytes_pack hkey]

/-! ## One message in the core -/

/-- The stream of a cipher that counts in the core is in order: until it has been given a byte the
cipher is where it began, and a single message of whole blocks has been treated right. -/
structure Beginning (P : Platform) (E : Block → Block) (v : Nat) (length : UInt32)
    (x : Machine × Stream) : Prop where
  inv : ∃ bs, Memmgr.Inv P.env x.1.session bs
  size : x.1.session.st.poolSize = length
  encipher : x.2.cipher.core.encipher P.aes = E
  location : x.2.cipher.core.lastLocation < 16
  place : x.2.messages.flatten = [] → Core.At P.aes v 0 x.2.cipher.core
  output_eq : (x.2.messages.Pairwise fun d d' => d = [] ∨ d' = []) →
    (∀ d ∈ x.2.messages, d.length % 16 = 0) →
    x.2.output = xorFrom (keystream E v) 0 x.2.messages.flatten

variable {v : Nat} {length : UInt32}

/-- One action keeps it in order. -/
theorem Beginning.step (h : Beginning P E v length x) (hf : 2 * length.toNat + 2 ≤ P.fuel)
    (hstep : StreamStep P (aesEncryptCtrHw P) (fun _ len => len < 2 ^ 31) x y) :
    Beginning P E v length y := by
  obtain ⟨bs, I⟩ := h.inv
  cases hstep with
  | client hop =>
    obtain ⟨bs', I', -⟩ := I.step hop
    exact ⟨⟨bs', I'⟩, (I.step_poolSize hop).trans h.size, h.encipher, h.location, h.place,
      h.output_eq⟩
  | device => exact ⟨⟨bs, I⟩, h.size, h.encipher, h.location, h.place, h.output_eq⟩
  | @call m m' x c input output len rc hq hin hout hapart hcall =>
    have hf' : 2 * m.session.st.poolSize.toNat + 2 ≤ P.fuel := by rwa [show _ = length from h.size]
    obtain ⟨⟨js, S⟩, hcore, hbytes⟩ := ctrHw_settled I hf' hq hin hout h.location hcall
    have hlast : (m.session.st.mem.bytes input len).length = len := Mem.length_bytes ..
    refine ⟨S.inv, by rw [S.frame.poolSize_eq]; exact h.size, ?_, ?_, fun hnil => ?_,
      fun hsingle hwhole => ?_⟩
    · rw [show c.core = _ from hcore, Core.advance_encipher]
      exact h.encipher
    · rw [show c.core = _ from hcore]
      exact Core.advance_lastLocation_lt
    · -- nothing has been given yet
      rw [List.flatten_append, List.append_eq_nil_iff, List.flatten_singleton] at hnil
      obtain rfl : len = 0 := by rw [← hlast, hnil.2]; rfl
      have hplace := (h.place hnil.1).advance (by decide : 0 < 2 ^ 31)
        (carrySafe_of_lt _ (by rw [Core.fullBlocks]; omega))
      rw [← hcore] at hplace
      exact hplace
    · obtain ⟨hbefore, -, hpair⟩ := List.pairwise_append.1 hsingle
      have hx := h.output_eq hbefore fun d hd => hwhole d (by simp [hd])
      have hlen := hwhole (m.session.st.mem.bytes input len) (by simp)
      rw [hlast] at hlen
      dsimp only at hx ⊢
      rw [hx, List.flatten_append, List.flatten_singleton, xorFrom_append]
      congr 1
      refine bytes_eq_xorFrom.2 fun k hk => ?_
      -- the message is the first that is not empty
      have hnil : x.messages.flatten = [] := by
        refine List.flatten_eq_nil_iff.2 fun d hd => ?_
        refine (hpair d hd (m.session.st.mem.bytes input len) (by simp)).resolve_right
          fun hempty => ?_
        rw [hempty] at hlast
        rw [← hlast] at hk
        exact absurd hk (Nat.not_lt_zero k)
      rw [hbytes hapart k hk, (h.place hnil).emit_whole (by decide) hlen hk, h.encipher, hnil]
      rfl

theorem Beginning.run (h : Beginning P E v length x) (hf : 2 * length.toNat + 2 ≤ P.fuel)
    (hrun : StreamRun P (aesEncryptCtrHw P) (fun _ len => len < 2 ^ 31) x y) :
    Beginning P E v length y := by
  induction hrun with
  | refl => exact h
  | tail _ hstep ih => exact ih.step hf hstep

/-! ## The two paths -/

/-- While `incrementIv` counts, the software makes the stream of counter mode. -/
theorem runStream_eq (hiv : iv.length = 16) (h : ∀ j, 16 * (j + 1) < n → ¬Slips (counter iv + j))
    {p : Nat} (hp : p < n) : runStream E iv p = keystream E (counter iv) p := by
  obtain ⟨hlen, hvalue⟩ := counter_iterate hiv (j := p / 16) fun i hi => h i (by omega)
  rw [runStream, blockOf_eq hlen, hvalue, counterBlock_mod]
  rfl

/-- A single message may as well be cut. -/
theorem flatten_map_xorFrom {ks : Nat → UInt8} {ds : List (List UInt8)}
    (h : ds.Pairwise fun d d' => d = [] ∨ d' = []) :
    (ds.map (xorFrom ks 0)).flatten = xorFrom ks 0 ds.flatten := by
  induction ds with
  | nil => rfl
  | cons d ds ih =>
    obtain ⟨hd, hds⟩ := List.pairwise_cons.1 h
    rw [List.map_cons, List.flatten_cons, List.flatten_cons, ih hds, xorFrom_append]
    congr 1
    by_cases hnil : d = []
    · rw [hnil]
      rfl
    · have hrest : ds.flatten = [] :=
        List.flatten_eq_nil_iff.2 fun d' hd' => (hd d' hd').resolve_left hnil
      rw [hrest]
      rfl

/-- The messages are of the kind that `Aes_encrypt_ctr_run` treats like the core: at most one of
them has any bytes, it consists of whole blocks, and `incrementIv` counts them. -/
structure Tame (iv : List UInt8) (messages : List (List UInt8)) : Prop where
  single : messages.Pairwise fun d d' => d = [] ∨ d' = []
  whole : ∀ d ∈ messages, d.length % 16 = 0
  counts : ∀ j, 16 * (j + 1) < messages.flatten.length → ¬Slips (counter iv + j)

/-- **The two paths return the same for tame messages**, whose lengths are those of an `int`: the
ciphers are two new ones with the same key and counter, and each runs on a machine of its own.  For
any messages `Aes_encrypt_ctr_run` leaves its input as it was. -/
theorem ctr_paths {s : Memmgr.State} {buffer : Nat} {length baseAddress base₁ base₂ : UInt32}
    {r₁ r₂ : NewReply} {key : List UInt8} {mode₁ mode₂ : Int} {m₁ m₂ n₁ n₂ : Machine}
    {c₁ c₂ : FpgaAes} {x y : Stream} (hs : s.session = 0)
    (hp : buffer = 0 ∨ Memmgr.Placed P.env buffer length)
    (hS₁ : Memmgr.Reachable P.env s buffer length baseAddress m₁.session)
    (hS₂ : Memmgr.Reachable P.env s buffer length baseAddress m₂.session)
    (hf : 2 * length.toNat + 2 ≤ P.fuel) (hkey : key.length = 16) (hiv : iv.length = 16)
    (hnew₁ : fpgaAesNew r₁ key base₁ iv 16 mode₁ = some c₁)
    (hnew₂ : fpgaAesNew r₂ key base₂ iv 16 mode₂ = some c₂)
    (hrun₁ : StreamRun P (aesEncryptCtrRun P) (fun _ _ => True) (m₁, ⟨c₁, [], []⟩) (n₁, x))
    (hrun₂ : StreamRun P (aesEncryptCtrHw P) (fun _ len => len < 2 ^ 31)
      (m₂, ⟨c₂, [], []⟩) (n₂, y))
    (hmessages : x.messages = y.messages) :
    (Tame iv x.messages → x.output = y.output) ∧
      ∀ input output len, n₁.session.Owns input len → n₁.session.Owns output len →
        Mem.Apart input len output len →
        ∃ c m, aesEncryptCtrRun P x.cipher input len output (n₁.phys input) (n₁.phys output) n₁ =
            .ok (0, c) m ∧
          m.session.st.mem.bytes input len = n₁.session.st.mem.bytes input len := by
  have h₁ := (Restarting.fresh hs hp hS₁ hkey hiv hnew₁).run hrun₁
  have hfresh := Streaming.fresh hs hp hS₂ hkey hiv hnew₂
  have hbegin : Beginning P (P.aes (blockOf key)) (counter iv) length (m₂, ⟨c₂, [], []⟩) :=
    ⟨hfresh.inv, hfresh.size, hfresh.encipher,
      by rw [hfresh.place.location]; exact Nat.mod_lt _ (by decide), fun _ => hfresh.place,
      fun _ _ => rfl⟩
  have h₂ := hbegin.run hf hrun₂
  refine ⟨fun ⟨hsingle, hwhole, hcounts⟩ => ?_, fun input output len hin hout hapart => ?_⟩
  · have hx := h₁.output_eq hwhole
    have hy := h₂.output_eq (by rwa [← hmessages]) (by rwa [← hmessages])
    dsimp only at hx hy
    rw [flatten_map_xorFrom hsingle] at hx
    rw [hx, hy, ← hmessages]
    refine xorFrom_congr fun i hi => ?_
    rw [Nat.zero_add]
    exact runStream_eq hiv hcounts hi
  · obtain ⟨bs, I⟩ := h₁.inv
    obtain ⟨c, m, hrun, -, -, hsession⟩ := ctrRun_returns I h₁.updates hin hout hapart
    exact ⟨c, m, hrun, (ctrRun_bytes hapart hsession).1⟩

/-! ## Two blocks on either path -/

/-- A message of two blocks on either path, each on a machine that has just got the two buffers. -/
theorem bench_two (aes : Block → Block → Block) {r : NewReply} {key : List UInt8} {base : UInt32}
    {mode : Int} (hkey : key.length = 16) (hiv : iv.length = 16)
    (hnew : fpgaAesNew r key base iv 16 mode = some c) {Q : FpgaAes → Nat → Prop} (hq : Q c 32) :
    ∃ m m₁ m₂ c₁ c₂,
      Memmgr.Reachable Env.zynq (Memmgr.State.loaded fun _ => 0) 0x100000 0x800000 0x1f410000
        m.session ∧
      StreamRun (Platform.zynq aes) (aesEncryptCtrRun (Platform.zynq aes)) Q
        (m, ⟨c, [], []⟩)
        (m₁, ⟨c₁, [m.session.st.mem.bytes 0x100014 32], m₁.session.st.mem.bytes 0x20002c 32⟩) ∧
      StreamRun (Platform.zynq aes) (aesEncryptCtrHw (Platform.zynq aes))
        (fun _ len => len < 2 ^ 31) (m, ⟨c, [], []⟩)
        (m₂, ⟨c₂, [m.session.st.mem.bytes 0x100014 32], m₂.session.st.mem.bytes 0x20002c 32⟩) ∧
      ∀ k, k < 32 →
        m₁.session.st.mem (0x20002c + k) =
          m.session.st.mem (0x100014 + k) ^^^ runStream (aes (blockOf key)) iv k ∧
        m₂.session.st.mem (0x20002c + k) =
          m.session.st.mem (0x100014 + k) ^^^ keystream (aes (blockOf key)) (counter iv) k := by
  obtain ⟨S, hS, hlive, -⟩ := bench_reachable
  obtain ⟨bs, I⟩ := hS.inv rfl (Or.inr zynq_placed_shared)
  obtain ⟨hloc, -, hkeyIn, hup⟩ := new_eq hnew
  have hE : c.core.encipher aes = aes (blockOf key) := by
    rw [Core.encipher, show c.core.key = Words.pack key from hkeyIn, toBytes_pack hkey]
  have hnone : c.core.extraBytes 32 = 0 := by
    rw [Core.extraBytes, Core.leftover_of_zero (by rw [show c.core.lastLocation = 0 from hloc])]
  obtain ⟨c₂, m₂, js, hcall₂, hin, hout, hapart, -, -, hbytes₂⟩ := bench_call aes
    (m := Machine.on S) I hlive (hS.poolSize_eq rfl (Or.inr zynq_placed_shared))
    (by rw [hloc]; decide) 0 32 (by decide) (Or.inl hnone)
  obtain ⟨c₁, m₁, hcall₁, -, -, hsession⟩ := ctrRun_returns (P := Platform.zynq aes)
    (m := Machine.on S) I hup hin hout hapart
  refine ⟨Machine.on S, m₁, m₂, c₁, c₂, hS,
    .single (.call (x := ⟨c, [], []⟩) hq hin hout hapart hcall₁),
    .single (.call (x := ⟨c, [], []⟩) (by decide) hin hout hapart hcall₂), fun k hk => ⟨?_, ?_⟩⟩
  · have h := bytes_eq_xorFrom.1 ((ctrRun_bytes hapart hsession).2 (by decide)) k hk
    rwa [Nat.zero_add, fresh_iv hnew hiv, show c.core.encipher (Platform.zynq aes).aes = _ from hE]
      at h
  · have h := hbytes₂ k hk
    rwa [(Core.at_fresh hnew hiv).emit_whole (by decide) (by decide) hk, Nat.zero_add, hE] at h

/-- Two blocks from the counter 255, which `incrementIv` counts. -/
theorem ctr_paths_zynq : ∃ m₁ m₂ x y,
    StreamRun (Platform.zynq benchAes) (aesEncryptCtrRun (Platform.zynq benchAes))
      (fun _ _ => True) (m₁, ⟨benchCipher, [], []⟩) x ∧
    StreamRun (Platform.zynq benchAes) (aesEncryptCtrHw (Platform.zynq benchAes))
      (fun _ len => len < 2 ^ 31) (m₂, ⟨benchCipher, [], []⟩) y ∧
    x.2.messages.flatten.length = 32 ∧ x.2.messages = y.2.messages ∧ x.2.output = y.2.output := by
  obtain ⟨m, m₁, m₂, c₁, c₂, hS, hrun₁, hrun₂, -⟩ :=
    bench_two benchAes (by rfl) (by rfl) benchCipher_new (Q := fun _ _ => True) trivial
  have htame : Tame (List.replicate 15 0 ++ [255]) [m.session.st.mem.bytes 0x100014 32] := by
    refine ⟨List.pairwise_singleton _ _, by simp, fun j hj => ?_⟩
    rw [List.flatten_singleton, Mem.length_bytes] at hj
    obtain rfl : j = 0 := by omega
    rw [bench_counter]
    decide
  exact ⟨_, _, _, _, hrun₁, hrun₂, by simp, rfl,
    (ctr_paths rfl (Or.inr zynq_placed_shared) hS hS (zynq_fuel _) (by rfl) (by rfl)
      benchCipher_new benchCipher_new hrun₁ hrun₂ rfl).1 htame⟩

/-- The two paths would return the same with the block cipher `aes` in any two runs over the same
messages whose lengths do not overflow. -/
def PathsAgree (aes : Block → Block → Block) : Prop :=
  ∀ {P : Platform} {s : Memmgr.State} {buffer : Nat} {length baseAddress base₁ base₂ : UInt32}
    {r₁ r₂ : NewReply} {key iv : List UInt8} {mode₁ mode₂ : Int} {m₁ m₂ n₁ n₂ : Machine}
    {c₁ c₂ : FpgaAes} {x y : Stream}, P.aes = aes → s.session = 0 →
    (buffer = 0 ∨ Memmgr.Placed P.env buffer length) →
    Memmgr.Reachable P.env s buffer length baseAddress m₁.session →
    Memmgr.Reachable P.env s buffer length baseAddress m₂.session →
    2 * length.toNat + 2 ≤ P.fuel → key.length = 16 → iv.length = 16 →
    fpgaAesNew r₁ key base₁ iv 16 mode₁ = some c₁ →
    fpgaAesNew r₂ key base₂ iv 16 mode₂ = some c₂ →
    StreamRun P (aesEncryptCtrRun P) (fun _ len => len < 2 ^ 31) (m₁, ⟨c₁, [], []⟩) (n₁, x) →
    StreamRun P (aesEncryptCtrHw P) (fun _ len => len < 2 ^ 31) (m₂, ⟨c₂, [], []⟩) (n₂, y) →
    x.messages = y.messages → x.output = y.output

/-- **They do not**, whatever the block cipher: the second block after the counter 254 is enciphered
from 511 by the software. -/
theorem ctr_paths_differ :
    ¬∃ aes : Block → Block → Block, (∀ k, Function.Injective (aes k)) ∧ PathsAgree aes := by
  rintro ⟨aes, hinj, hagree⟩
  obtain ⟨c, hnew⟩ : ∃ c, fpgaAesNewShort16 ⟨fun _ => 0, true, true, true, true, true, true⟩
    (List.replicate 16 0) (List.replicate 15 0 ++ [254]) = some c := ⟨_, rfl⟩
  obtain ⟨m, m₁, m₂, c₁, c₂, hS, hrun₁, hrun₂, hbytes⟩ :=
    bench_two aes (by rfl) (by rfl) hnew (Q := fun _ len => len < 2 ^ 31) (by decide)
  have hsame := hagree rfl rfl (Or.inr zynq_placed_shared) hS hS (zynq_fuel aes) (by rfl) (by rfl)
    hnew hnew hrun₁ hrun₂ rfl
  have hblock : aes (blockOf (List.replicate 16 0)) (blockOf (List.replicate 14 0 ++ [1, 255])) =
      aes (blockOf (List.replicate 16 0)) (counterBlock 255) := by
    funext j
    obtain ⟨h₁, h₂⟩ := hbytes (16 + j) (by omega)
    have hdiv : (16 + j.val) / 16 = 1 := by omega
    have hbyte := Mem.eq_of_bytes_eq hsame (k := 16 + j) (by omega)
    rw [h₁, h₂, UInt8.xor_right_inj, runStream, keystream, hdiv,
      Block.at_eq (j := j) (by omega), Block.at_eq (j := j) (by omega)] at hbyte
    exact hbyte
  have h := hinj _ hblock
  rw [blockOf_eq (by rfl)] at h
  exact absurd (counterBlock_inj (by decide) (by decide) h) (by decide)

end Zedboard
