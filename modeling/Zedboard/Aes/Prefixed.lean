import Zedboard.Aes.Stream

/-!
# The format with the counter in front

`Aes_encrypt_memmgr_with_iv` writes the counter of the cipher in front of what it enciphers, so that
the receiver can start there.  That is right for a call that begins with a new keystream block
(`prefixed_decrypts`).  When the call before it ended within a block, this one first uses up what is
left of that block, which the counter in front says nothing about (`prefixed_fails`).
-/

set_option autoImplicit false

namespace Zedboard

open Machine Prog

variable {P : Platform} {m : Machine} {c : FpgaAes} {input output : Nat}
  {outputLen inputLen : UInt32}

/-- `memmgr_assert` accepts the pointers of the call, with the counter written into the output. -/
def Accepted (e : Env) (s : Memmgr.State) (c : FpgaAes) (input output : Nat) : Prop :=
  let s := { s with mem := s.mem.fill output 16 fun i => c.iv.getD i 0 }
  Memmgr.memmgrAssert e s input = true ∧ Memmgr.memmgrAssert e s (output + 16) = true

/-- What a receiver gets who knows the block function: the bytes behind the first sixteen, combined
with the stream from the counter that those are. -/
def deciphered (E : Block → Block) (mem : Mem) (output len : Nat) : List UInt8 :=
  xorFrom (keystream E (counter (mem.bytes output 16))) 0 (mem.bytes (output + 16) len)

/-- The sixteen bytes that hold a counter. -/
theorem bytes_counter {mem : Mem} {p : Nat} {iv : List UInt8} (hiv : iv.length = 16)
    (h : ∀ i, i < 16 → mem (p + i) = iv.getD i 0) : mem.bytes p 16 = iv := by
  refine List.ext_getElem (by simp [hiv]) fun k h1 h2 => ?_
  rw [Mem.getElem_bytes, h k (by omega), List.getD_eq_getElem _ _ h2]

/-- A cipher whose counters are in step, and which begins a new block, is at the beginning of the
stream from its own counter. -/
theorem Core.at_self {aes : Block → Block → Block} {c : Core} (hstep : InStep c.iv c.ivIn)
    (hloc : c.lastLocation = 0) : Core.At aes (counter c.iv) 0 c := by
  refine ⟨hstep, ?_, hloc, fun h => absurd h (by decide)⟩
  have hlt := counter_lt c.iv
  rw [hstep.length] at hlt
  exact (Nat.mod_eq_of_lt hlt).symm

/-- The call, followed down to counter mode. -/
theorem withIv_eq (hivLength : c.ivLength = 16) (hout : output ≠ 0)
    (hfit : inputLen.toNat + 16 ≤ outputLen.toNat)
    (h : Accepted P.env m.session.st c input output) :
    aesEncryptMemmgrWithIv P c output outputLen input inputLen m =
      (do
        let r ← aesEncryptCtrHw P c input inputLen.toNat (output + 16) (m.phys input)
          (m.phys (output + 16))
        return (if 0 < r.1 then wrapInt (r.1 + 16) else r.1, r.2))
        (m.withMem (m.session.st.mem.fill output 16 fun i => c.iv.getD i 0)) := by
  have hcheck : ¬outputLen < inputLen + UInt32.ofNat 16 := by
    rw [UInt32.lt_iff_toNat_lt, UInt32.toNat_add, UInt32.toNat_ofNat']
    have := outputLen.toNat_lt
    omega
  have hin' : memmgrAssert P input
      (m.withMem (m.session.st.mem.fill output 16 fun i => c.iv.getD i 0)) = .ok () _ :=
    if_pos h.1
  have hout' : memmgrAssert P (output + 16)
      (m.withMem (m.session.st.mem.fill output 16 fun i => c.iv.getD i 0)) = .ok () _ :=
    if_pos h.2
  rw [aesEncryptMemmgrWithIv, hivLength, if_neg hcheck, bind_of_ok (copyTo_ok hout _),
    aesEncryptMemmgr]
  show EStateM.bind _ _ _ = EStateM.bind _ _ _
  rw [EStateM.bind, EStateM.bind, bind_of_ok hin', bind_of_ok hout', bind_of_ok (lookup_ok input),
    bind_of_ok (lookup_ok (output + 16))]
  rfl

/-- **What a call leaves**: the counter, and behind it the input combined with what the cipher
emits. -/
theorem withIv_returns (input output : Nat) (outputLen inputLen : UInt32)
    {bs : List Memmgr.Block} (I : Memmgr.Inv P.env m.session bs)
    (hf : 2 * m.session.st.poolSize.toNat + 2 ≤ P.fuel) (hivLength : c.ivLength = 16)
    (hiv : c.iv.length = 16) (hloc : c.lastLocation < 16) (hpos : 0 < inputLen.toNat)
    (hlen : inputLen.toNat + 16 < 2 ^ 31) (hfit : inputLen.toNat + 16 ≤ outputLen.toNat)
    (hin : m.session.Owns input inputLen.toNat) (hout : m.session.Owns output (inputLen.toNat + 16))
    (hapart : Mem.Apart input inputLen.toNat output (inputLen.toNat + 16))
    (hacc : Accepted P.env m.session.st c input output)
    (h : c.core.extraBytes inputLen.toNat = 0 ∨ Memmgr.Serves P.env m.session.st bs 2) :
    ∃ c' m', aesEncryptMemmgrWithIv P c output outputLen input inputLen m =
        .ok (((inputLen.toNat + 16 : Nat) : Int), c') m' ∧
      m'.session.st.mem.bytes output 16 = c.iv ∧
      ∀ k, k < inputLen.toNat → m'.session.st.mem (output + 16 + k) =
        m.session.st.mem (input + k) ^^^ c.core.emit P.aes inputLen.toNat k := by
  have houtPart : m.session.Owns (output + 16) inputLen.toNat := hout.part (by omega)
  have hout0 : output ≠ 0 := by
    have := (I.placed hout).1.pool_pos
    have := (I.placed hout).2.2.1
    omega
  have I₁ := inv_fill I (fun i => c.iv.getD i 0) (p := output) (n := 16)
    fun a h1 h2 => hout.usable h1 (by omega)
  obtain ⟨c', m', js, hrun, S, -, -, hbytes⟩ := ctrHw_returns I₁ hf
    (by omega) hin houtPart hloc h
  refine ⟨c', m', ?_, bytes_counter hiv fun i hi => ?_, fun k hk => ?_⟩
  · have hwrap : wrapInt ((inputLen.toNat : Int) + 16) = ((inputLen.toNat + 16 : Nat) : Int) :=
      cInt_of_lt hlen
    rw [cInt_of_lt (by omega)] at hrun
    rw [withIv_eq hivLength hout0 hfit hacc]
    refine (bind_of_ok hrun).trans ?_
    dsimp only
    rw [if_pos (by omega), hwrap]
    rfl
  · rw [S.frame.mem_eq _ ⟨hout.usable (by omega) (by omega), by omega⟩, withMem_mem,
      Mem.fill_of_inside _ _ hi]
  · have hsrc : (m.session.st.mem.fill output 16 fun i => c.iv.getD i 0) (input + k) =
        m.session.st.mem (input + k) :=
      Mem.fill_of_outside _ _ (by unfold Mem.Apart at hapart; omega)
    rw [hbytes (by unfold Mem.Apart at *; omega) k hk, withMem_mem, hsrc]

/-- **The receiver gets the input** from a call that begins with a new keystream block, when the
calls before it and the call itself are safe, `memmgr_assert` accepts its pointers, and there are
scratch blocks or none are needed. -/
theorem prefixed_decrypts (input output : Nat) (outputLen inputLen : UInt32) {s : Memmgr.State}
    {buffer : Nat} {length baseAddress base : UInt32}
    {r : NewReply} {key iv : List UInt8} {mode : Int} {c₀ : FpgaAes}
    (hs : s.session = 0) (hp : buffer = 0 ∨ Memmgr.Placed P.env buffer length)
    (hS : Memmgr.Reachable P.env s buffer length baseAddress m.session)
    (hf : 2 * length.toNat + 2 ≤ P.fuel) (hkey : key.length = 16) (hiv : iv.length = 16)
    (hnew : fpgaAesNew r key base iv 16 mode = some c₀) (hused : Used P Safe c₀ c)
    (hblock : c.lastLocation = 0) (hsafe : c.core.CallSafe inputLen.toNat)
    (hpos : 0 < inputLen.toNat) (hlen : inputLen.toNat + 16 < 2 ^ 31)
    (hfit : inputLen.toNat + 16 ≤ outputLen.toNat) (hin : m.session.Owns input inputLen.toNat)
    (hout : m.session.Owns output (inputLen.toNat + 16))
    (hapart : Mem.Apart input inputLen.toNat output (inputLen.toNat + 16))
    (hacc : Accepted P.env m.session.st c input output) :
    ∃ bs, Memmgr.WellFormed P.env m.session bs ∧
      (c.core.extraBytes inputLen.toNat = 0 ∨ Memmgr.Serves P.env m.session.st bs 2 →
        ∃ c' m', aesEncryptMemmgrWithIv P c output outputLen input inputLen m =
            .ok (((inputLen.toNat + 16 : Nat) : Int), c') m' ∧
          deciphered (P.aes (blockOf key)) m'.session.st.mem output inputLen.toNat =
            m.session.st.mem.bytes input inputLen.toNat) := by
  obtain ⟨bs, I⟩ := hS.inv hs hp
  obtain ⟨hstep₀, hloc₀, hivLength₀, hkey₀⟩ := fresh_inStep hnew hiv
  obtain ⟨hloc, hfix⟩ := hused.lastLocation_lt (by omega)
  obtain ⟨hstep, hkeyIn⟩ := hused.inStep (by omega) hstep₀
  refine ⟨bs, I.wellFormed, fun hserves => ?_⟩
  obtain ⟨c', m', hrun, hfront, hbytes⟩ := withIv_returns input output outputLen inputLen I
    (by rwa [hS.poolSize_eq hs hp]) (hfix.ivLength_eq.trans hivLength₀) hstep.length hloc hpos
    hlen hfit hin hout hapart hacc hserves
  have hE : c.core.encipher P.aes = P.aes (blockOf key) := by
    rw [Core.encipher, show c.core.key = Words.pack key from hkeyIn.trans hkey₀, toBytes_pack hkey]
  refine ⟨c', m', hrun, ?_⟩
  have hcipher : m'.session.st.mem.bytes (output + 16) inputLen.toNat =
      xorFrom (keystream (P.aes (blockOf key)) (counter c.iv)) 0
        (m.session.st.mem.bytes input inputLen.toNat) := by
    refine bytes_eq_xorFrom.2 fun k hk => ?_
    rw [hbytes k hk, (Core.at_self (c := c.core) hstep hblock).emit_eq (by omega) hsafe hk, hE]
    rfl
  rw [deciphered, hfront, hcipher, xorFrom_xorFrom]

/-- On the bench `memmgr_assert` accepts a pointer to a block that begins with zeros. -/
theorem bench_accepts {s : Memmgr.State} {ap : Nat} (hpool : s.pool = 0x100000)
    (hsize : s.poolSize = 0x800000) (hlargest : s.largestAllocation = 0x100000)
    (h1 : 0x100000 ≤ ap) (h2 : ap < 0x900000) (hzero : ∀ k, k < 16 → s.mem (ap + k) = 0) :
    Memmgr.memmgrAssert Env.zynq s ap = true := by
  have hword : ∀ k, k + 4 ≤ 16 → s.mem.readLE 4 (ap + k) = 0 := fun k hk =>
    Mem.readLE_of_bytes (v := 0) fun i hi => by
      rw [Nat.add_assoc, hzero _ (by omega), Nat.zero_div]
      rfl
  have hblock : (ap + (Env.zynq.range - 0 % Env.zynq.range) * Env.zynq.hdr) % Env.zynq.range =
      ap := by
    have hrange : Env.zynq.range = 2 ^ 32 := rfl
    have hhdr : Env.zynq.hdr = 20 := rfl
    rw [hrange, hhdr]
    omega
  have hnonce : s.nonceAt Env.zynq ap ≠ nonce ∧ s.nonce2At Env.zynq ap ≠ nonce2 := by
    rw [Memmgr.State.nonceAt, Memmgr.State.nonce2At]
    have hw : 2 * Env.zynq.word = 8 := rfl
    rw [hw, hword 8 (by decide), Nat.add_assoc, hword 12 (by decide)]
    decide
  have hrounds : s.largestAllocation.toNat = 1048575 + 1 := by rw [hlargest]; decide
  have hcur : (UInt32.ofNat ap).toNat = ap := by
    rw [UInt32.toNat_ofNat']
    omega
  have hend : (UInt32.ofNat 0x100000 + 0x800000).toNat = 0x900000 := by decide
  have hbase : (UInt32.ofNat 0x100000).toNat = 0x100000 := by decide
  rw [Memmgr.memmgrAssert, if_neg (by rw [hpool]; decide), hpool, hsize]
  dsimp only
  rw [if_neg, hrounds, Memmgr.assertLoop, hblock, if_pos hnonce]
  rw [UInt32.lt_iff_toNat_lt, UInt32.lt_iff_toNat_lt, hcur, hend, hbase]
  omega

theorem bench_accepted {s : Memmgr.State} (hpool : s.pool = 0x100000)
    (hsize : s.poolSize = 0x800000) (hlargest : s.largestAllocation = 0x100000)
    (h1 : 0x100000 ≤ input) (h2 : input + 16 ≤ output) (h3 : output + 16 < 0x900000)
    (hin : ∀ k, k < 32 → s.mem (input + k) = 0) (hout : ∀ k, k < 32 → s.mem (output + k) = 0)
    (c : FpgaAes) : Accepted Env.zynq s c input output := by
  have houtside : ∀ x, output + 16 ≤ x ∨ x < output →
      s.mem.fill output 16 (fun i => c.iv.getD i 0) x = s.mem x :=
    fun x hx => Mem.fill_of_outside _ _ (by omega)
  refine ⟨bench_accepts hpool hsize hlargest h1 (by omega) fun k hk => ?_,
    bench_accepts hpool hsize hlargest (by omega) h3 fun k hk => ?_⟩
  · exact (houtside (input + k) (by omega)).trans (hin k (by omega))
  · refine (houtside (output + 16 + k) (by omega)).trans ?_
    rw [Nat.add_assoc]
    exact hout (16 + k) (by omega)

/-- A call for a hundred bytes, the first of its cipher. -/
theorem prefixed_decrypts_zynq : ∃ S c' m',
    Memmgr.Reachable Env.zynq (Memmgr.State.loaded fun _ => 0) 0x100000 0x800000 0x1f410000 S ∧
      aesEncryptMemmgrWithIv (Platform.zynq benchAes) benchCipher 0x20002c 200 0x100014 100
        (Machine.on S) = .ok (116, c') m' ∧
      deciphered (benchAes (blockOf (List.replicate 16 0))) m'.session.st.mem 0x20002c 100 =
        S.st.mem.bytes 0x100014 100 := by
  obtain ⟨S, hS, hlive, hroomy, hpool, hlargest, hzero⟩ := bench_reachable
  have hsize := hS.poolSize_eq rfl (Or.inr zynq_placed_shared)
  obtain ⟨bs, -, h⟩ := prefixed_decrypts 0x100014 0x20002c 200 100
    (P := Platform.zynq benchAes) (m := Machine.on S) rfl (Or.inr zynq_placed_shared) hS
    (zynq_fuel _) (by rfl) (by rfl) benchCipher_new .refl (by rfl)
    (Core.callSafe_of_lt (by decide)) (by decide) (by decide) (by decide)
    ⟨0x100014, 0x100000, by simp [Machine.on, hlive], by decide, by decide⟩
    ⟨0x20002c, 0x100000, by simp [Machine.on, hlive], by decide, by decide⟩
    (by unfold Mem.Apart; decide) (bench_accepted hpool hsize hlargest (by decide) (by decide)
      (by decide) (fun k hk => (hzero k hk).1) (fun k hk => (hzero k hk).2) _)
  obtain ⟨c', m', hrun, hdec⟩ := h (Or.inr (Or.inl hroomy))
  exact ⟨S, c', m', hS, hrun, hdec⟩

/-- A receiver who gets the input has used the stream that the cipher emitted. -/
theorem emit_of_deciphered {E : Block → Block} {mem mem' : Mem} {iv : List UInt8}
    {ks : Nat → UInt8} {len : Nat} (hfront : mem'.bytes output 16 = iv)
    (hbytes : ∀ k, k < len → mem' (output + 16 + k) = mem (input + k) ^^^ ks k)
    (h : deciphered E mem' output len = mem.bytes input len) {k : Nat} (hk : k < len) :
    ks k = keystream E (counter iv) k := by
  rw [deciphered, hfront] at h
  have h1 : mem'.bytes (output + 16) len =
      xorFrom (keystream E (counter iv)) 0 (mem.bytes input len) := by
    rw [← h, xorFrom_xorFrom]
  have h2 := bytes_eq_xorFrom.1 h1 k hk
  rw [Nat.zero_add] at h2
  exact (UInt8.xor_right_inj _).1 ((hbytes k hk).symm.trans h2)

/-- The format would be right with the block cipher `aes` after any calls whose lengths do not
overflow. -/
def PrefixCorrect (aes : Block → Block → Block) : Prop :=
  ∀ {P : Platform} {s : Memmgr.State} {buffer : Nat} {length baseAddress base : UInt32}
    {m m' : Machine} {r : NewReply} {key iv : List UInt8} {mode rc : Int} {c₀ c c' : FpgaAes}
    {input output : Nat} {outputLen inputLen : UInt32},
    P.aes = aes → s.session = 0 → (buffer = 0 ∨ Memmgr.Placed P.env buffer length) →
    Memmgr.Reachable P.env s buffer length baseAddress m.session → 2 * length.toNat + 2 ≤ P.fuel →
    key.length = 16 → iv.length = 16 → fpgaAesNew r key base iv 16 mode = some c₀ →
    Used P (fun _ len => len < 2 ^ 31) c₀ c → inputLen.toNat + 16 ≤ outputLen.toNat →
    m.session.Owns input inputLen.toNat → m.session.Owns output (inputLen.toNat + 16) →
    Mem.Apart input inputLen.toNat output (inputLen.toNat + 16) →
    aesEncryptMemmgrWithIv P c output outputLen input inputLen m = .ok (rc, c') m' →
    deciphered (aes (blockOf key)) m'.session.st.mem output inputLen.toNat =
      m.session.st.mem.bytes input inputLen.toNat

/-- The cipher of the bench after a call for eight bytes: it is in the middle of a block. -/
theorem bench_eight (aes : Block → Block → Block) : ∃ c,
    Used (Platform.zynq aes) (fun _ len => len < 2 ^ 31) benchCipher c ∧ c.ivLength = 16 ∧
      c.core.lastLocation = 8 ∧ c.core.iv = addIvOpenssl benchCipher.iv 1 ∧
      c.core.ivIn = addWords benchCipher.ivIn 1 ∧
      c.core.encipher aes = aes (blockOf (List.replicate 16 0)) := by
  obtain ⟨S, hS, hlive, hroomy, -⟩ := bench_reachable
  obtain ⟨bs, I⟩ := hS.inv rfl (Or.inr zynq_placed_shared)
  obtain ⟨c, m₁, js, hcall, -, -, -, -, -, -⟩ := bench_call aes (m := Machine.on S)
    (c := benchCipher) I hlive (hS.poolSize_eq rfl (Or.inr zynq_placed_shared)) (by decide) 0 8
    (by decide) (Or.inr hroomy)
  obtain ⟨-, hfix, hadvance⟩ := ctrHw_ok (by decide) hcall
  have hcore : c.core = ⟨Words.pack (List.replicate 16 0), addIvOpenssl benchCipher.iv 1,
      addWords benchCipher.ivIn 1, 8, c.previousStorage⟩ := by
    rw [(hadvance (by decide)).2, Core.advance, if_neg (by decide)]
    rfl
  refine ⟨c, .single ⟨8, by decide, .ctrHw hcall⟩, hfix.ivLength_eq, by rw [hcore], by rw [hcore],
    by rw [hcore], ?_⟩
  rw [Core.encipher, hcore, toBytes_pack (by rfl)]

/-- A core with eight bytes of the block before the counter `v` left does not emit the stream from
`v`: both halves of its blocks `v` and `v + 1` would be the same. -/
theorem not_emit_keystream {aes : Block → Block → Block} {C : Core} {v : Nat}
    (hinj : Function.Injective (C.encipher aes)) (hleft : C.leftover 32 = 8)
    (hcounter : counter C.ivIn.toBytes = v) (htail : blockOf (C.tailIv 32) = counterBlock (v + 1))
    (hv : v + 1 < 256 ^ 16) :
    ¬∀ k, k < 32 → C.emit aes 32 k = keystream (C.encipher aes) v k := by
  intro hemit
  have hfull : C.fullBlocks 32 = 1 := by rw [Core.fullBlocks, hleft]
  have h1 : ∀ t, t < 8 → (C.encipher aes (counterBlock v)).at t =
      (C.encipher aes (counterBlock v)).at (8 + t) := by
    intro t ht
    have h1 := hemit (8 + t) (by omega)
    rw [Core.emit, hleft, hfull, if_neg (by omega), if_pos (by omega), hcounter,
      Nat.add_sub_cancel_left, keystream, keystream, Nat.div_eq_of_lt (by omega : t < 16),
      Nat.div_eq_of_lt (by omega : 8 + t < 16)] at h1
    exact h1
  have h2 : ∀ t, t < 8 → (C.encipher aes (counterBlock v)).at (8 + t) =
      (C.encipher aes (counterBlock (v + 1))).at t := by
    intro t ht
    have hk : 16 + t - 8 = 8 + t := by omega
    have hq : (16 + t) / 16 = 1 := by omega
    have h1 := hemit (16 + t) (by omega)
    rw [Core.emit, hleft, hfull, if_neg (by omega), hk, if_pos (by omega), hcounter,
      keystream, keystream, Nat.div_eq_of_lt (by omega : 8 + t < 16), hq, Block.at_add] at h1
    exact h1
  have h3 : ∀ t, t < 8 → (C.encipher aes (counterBlock (v + 1))).at t =
      (C.encipher aes (counterBlock (v + 1))).at (8 + t) := by
    intro t ht
    have hk : 24 + t - 8 = 16 + t := by omega
    have hk' : 24 + t = 16 + (8 + t) := by omega
    have hq : (24 + t) / 16 = 1 := by omega
    have h1 := hemit (24 + t) (by omega)
    rw [Core.emit, hleft, hfull, if_neg (by omega), hk, if_neg (by omega), htail,
      keystream, hq, hk', Block.at_add, Block.at_add] at h1
    exact h1
  have h4 := counterBlock_inj (by omega) hv (hinj (Block.eq_of_halves h1 h2 h3))
  omega

/-- **It is not**, whatever the block cipher: after a call for eight bytes, the next one takes its
first eight bytes of the stream from the block before the counter it writes in front. -/
theorem prefixed_fails :
    ¬∃ aes : Block → Block → Block, (∀ k, Function.Injective (aes k)) ∧ PrefixCorrect aes := by
  rintro ⟨aes, hinj, hcorrect⟩
  obtain ⟨S, hS, hlive, hroomy, hpool, hlargest, hzero⟩ := bench_reachable
  obtain ⟨bs, I⟩ := hS.inv rfl (Or.inr zynq_placed_shared)
  have hsize := hS.poolSize_eq rfl (Or.inr zynq_placed_shared)
  obtain ⟨c, hused, hivLength, hloc, hiv, hwords, hE⟩ := bench_eight aes
  have hcounter : counter c.core.iv = 256 := by rw [hiv]; decide
  have hcounterIn : counter c.core.ivIn.toBytes = 256 := by rw [hwords]; decide
  have hleft : c.core.leftover 32 = 8 := by rw [Core.leftover, hloc]; decide
  have htail : blockOf (c.core.tailIv 32) = counterBlock 257 := by
    rw [Core.tailIv, Core.fullBlocks, hleft, hiv]
    rw [blockOf_eq (by rfl)]
    congr 1
  -- the call with the counter in front
  obtain ⟨c', m', hrun, hfront, hbytes⟩ := withIv_returns 0x100014 0x20002c 48 32
    (P := Platform.zynq aes) (m := Machine.on S) (c := c) I
    (by rw [show (Machine.on S).session.st.poolSize = _ from hsize]; exact zynq_fuel aes)
    hivLength (by rw [show c.iv = _ from hiv]; decide)
    (by rw [show c.lastLocation = 8 from hloc]; decide) (by decide) (by decide) (by decide)
    ⟨0x100014, 0x100000, by simp [Machine.on, hlive], by decide, by decide⟩
    ⟨0x20002c, 0x100000, by simp [Machine.on, hlive], by decide, by decide⟩
    (by unfold Mem.Apart; decide) (bench_accepted hpool hsize hlargest (by decide) (by decide)
      (by decide) (fun k hk => (hzero k hk).1) (fun k hk => (hzero k hk).2) _)
    (Or.inr (Or.inl hroomy))
  have h := hcorrect rfl rfl (Or.inr zynq_placed_shared) hS (zynq_fuel aes) (by rfl) (by rfl)
    benchCipher_new hused (by decide)
    ⟨0x100014, 0x100000, by simp [Machine.on, hlive], by decide, by decide⟩
    ⟨0x20002c, 0x100000, by simp [Machine.on, hlive], by decide, by decide⟩
    (by unfold Mem.Apart; decide) hrun
  refine not_emit_keystream (by rw [hE]; exact hinj _) hleft hcounterIn htail (by decide)
    fun k hk => ?_
  rw [hE, ← hcounter]
  exact emit_of_deciphered hfront hbytes h hk

end Zedboard
