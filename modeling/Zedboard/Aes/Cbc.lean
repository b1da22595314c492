import Zedboard.Aes.Memcpy

/-!
# Cipher block chaining

`Aes_encrypt_cbc_run` chains the blocks in software, through one of two lower layers.  Through
`Aes_encrypt_memcpy` that is right (`cbc_memcpy`).  `Aes_encrypt_memmgr` enciphers in counter mode
and returns the number of bytes it has enciphered, which the loop takes for an error: with a block
to encipher it never returns 0 (`cbc_memmgr_fails`).
-/

set_option autoImplicit false

namespace Zedboard

open Machine Prog

/-! ## The mode -/

/-- The output blocks of cipher block chaining under the block function `E`, the initial one
first. -/
def cbc (E : Block → Block) (iv : Block) (msg : Nat → Block) : Nat → Block
  | 0 => iv
  | n + 1 => E fun j => msg n j ^^^ cbc E iv msg n j

/-- Chaining may begin anew at any output block. -/
theorem cbc_shift (E : Block → Block) (iv : Block) (msg : Nat → Block) (n : Nat) :
    cbc E (cbc E iv msg 1) (fun k => msg (k + 1)) n = cbc E iv msg (n + 1) := by
  induction n with
  | zero => rfl
  | succ n ih =>
    rw [cbc, ih]
    rfl

/-- The first blocks depend on the beginning of the message only. -/
theorem cbc_congr {E : Block → Block} {iv : Block} {msg msg' : Nat → Block} {n : Nat}
    (h : ∀ k, k < n → msg k = msg' k) : cbc E iv msg n = cbc E iv msg' n := by
  induction n with
  | zero => rfl
  | succ n ih => rw [cbc, cbc, h n (by omega), ih fun k hk => h k (by omega)]

/-- The block of memory at a pointer. -/
def Mem.block (mem : Mem) (p : Nat) : Block := fun j => mem (p + j)

theorem Mem.block_congr {mem mem' : Mem} {p : Nat} (h : ∀ a, p ≤ a → a < p + 16 → mem' a = mem a) :
    mem'.block p = mem.block p := by
  funext j
  exact h (p + j) (by omega) (by omega)

variable {P : Platform} {m m' : Machine} {c : FpgaAes}

/-! ## Through the shared memory -/

/-- One block through the shared memory: it is enciphered, and no other memory changes, the pool
apart. -/
theorem memcpy_block (hup : c.Updates) (harea : P.area c.sharedMemBase 16 ≠ none)
    (hfit : P.Fits c.sharedMemBase 16) {output : Nat} (input : Nat) (hout : output ≠ 0) :
    ∃ c' m', aesEncryptMemcpy P c output input 16 m = .ok (0, c') m' ∧
      c'.core = c.core ∧ Fixed c c' ∧
      m'.session = (m.withMem m'.session.st.mem).session ∧
      m'.session.st.mem.block output = c.core.encipher P.aes (m.session.st.mem.block input) ∧
      ∀ a, ¬m.InPool a → (a < output ∨ output + 16 ≤ a) →
        m'.session.st.mem a = m.session.st.mem a := by
  obtain ⟨m₁, c', hrun, hby, -, -, -, hbytes⟩ := memcpy_eq hup harea hfit m output input
  rw [if_neg fun h => hout h.1] at hrun
  obtain ⟨hcore, hfix⟩ := memcpy_ok hrun
  refine ⟨c', _, hrun, hcore, hfix, ?_, ?_, fun a hpool ha => ?_⟩
  · rw [withMem, hby.session_eq]
    rfl
  · funext j
    have h1 := hbytes j (by omega)
    have h2 : j.val / 16 * 16 = 0 := by omega
    rw [h2, Nat.add_zero, Block.at_eq (Nat.mod_eq_of_lt j.isLt)] at h1
    rw [Mem.block, withMem_mem, Mem.fill_of_inside _ _ j.isLt, h1]
    rfl
  · rw [withMem_mem, Mem.fill_of_outside _ _ ha, hby.mem_eq a hpool]

/-- The buffers of the loop lie outside the pool, the array on the stack overlaps no other, and no
output block overwrites input that is still to be read. -/
structure CbcPlaced (pool : Nat → Prop) (stack iv input output n : Nat) : Prop where
  outside : ∀ a, stack ≤ a ∧ a < stack + 16 ∨ iv ≤ a ∧ a < iv + 16 ∨
    input ≤ a ∧ a < input + 16 * n ∨ output ≤ a ∧ a < output + 16 * n → ¬pool a
  stack_iv : Mem.Apart stack 16 iv 16
  stack_input : Mem.Apart stack 16 input (16 * n)
  stack_output : Mem.Apart stack 16 output (16 * n)
  input_output : output ≤ input ∨ input + 16 * n ≤ output

/-- After one block the output block is the one to chain to. -/
theorem CbcPlaced.next {pool : Nat → Prop} {stack iv input output n : Nat}
    (h : CbcPlaced pool stack iv input output (n + 1)) :
    CbcPlaced pool stack output (input + 16) (output + 16) n := by
  obtain ⟨h1, h2, h3, h4, h5⟩ := h
  unfold Mem.Apart at h2 h3 h4
  refine ⟨fun a ha => h1 a (by omega), ?_, ?_, ?_, by omega⟩
  all_goals
    unfold Mem.Apart
    omega

/-- **A round through the shared memory**: one block is chained to the block at `currentIv`. -/
theorem cbcLoop_round {stack : Nat} (input n i currentIv : Nat) {currentOut : Nat}
    (hstack : stack ≠ 0) (hup : c.Updates) (harea : P.area c.sharedMemBase 16 ≠ none)
    (hfit : P.Fits c.sharedMemBase 16) (hout : currentOut ≠ 0) :
    ∃ c' m', cbcLoop P stack 1 input (n + 1) c i currentIv currentOut m =
        cbcLoop P stack 1 input n c' (i + 1) currentOut (currentOut + 16) m' ∧
      c'.core = c.core ∧ Fixed c c' ∧ m'.InPool = m.InPool ∧
      m'.session.st.mem.block currentOut =
        cbc (c.core.encipher P.aes) (m.session.st.mem.block currentIv)
          (fun k => m.session.st.mem.block (input + i * 16 + 16 * k)) 1 ∧
      ∀ a, ¬m.InPool a → (a < stack ∨ stack + 16 ≤ a) →
        (a < currentOut ∨ currentOut + 16 ≤ a) → m'.session.st.mem a = m.session.st.mem a := by
  have e₀ : (MonadState.get : Prog Machine) m = .ok m m := rfl
  have e₁ := copyTo_ok (m := m) (n := 16) hstack fun j => m.session.st.mem (currentIv + j) ^^^
    m.session.st.mem (input + i * 16 + j)
  generalize hm₁ : m.withMem (m.session.st.mem.fill stack 16 _) = m₁ at e₁
  have hdata : m₁.session.st.mem.block stack = fun j =>
      m.session.st.mem.block (input + i * 16) j ^^^ m.session.st.mem.block currentIv j := by
    funext j
    rw [Mem.block, ← hm₁, withMem_mem, Mem.fill_of_inside _ _ j.isLt, UInt8.xor_comm]
    rfl
  have hpool₁ : m₁.InPool = m.InPool := by rw [← hm₁]; rfl
  obtain ⟨c₂, m₂, e₂, hcore, hfix, hsession, hblock, hframe⟩ :=
    memcpy_block (m := m₁) hup harea hfit stack hout
  have e₂' : cbcEncrypt P 1 c currentOut stack 16 m₁ = .ok (0, c₂) m₂ := by
    rw [cbcEncrypt, if_pos rfl, e₂]
  refine ⟨c₂, m₂, ?_, hcore, hfix, ?_, ?_, fun a h1 h2 h3 => ?_⟩
  · rw [cbcLoop, bind_of_ok e₀, bind_of_ok e₁, bind_of_ok e₂']
    rfl
  · rw [← hpool₁]
    funext x
    rw [InPool, hsession]
    rfl
  · rw [hblock, hdata]
    rfl
  · rw [hframe a (by rwa [hpool₁]) h3, ← hm₁, withMem_mem, Mem.fill_of_outside _ _ h2]

/-- **The loop through the shared memory**, for `n` more blocks: they are chained to the block at
`currentIv`. -/
theorem cbcLoop_memcpy {stack input : Nat} (hstack : stack ≠ 0) : ∀ {n : Nat} (i : Nat)
    {m : Machine} {c : FpgaAes} {currentIv currentOut : Nat}, c.Updates →
    P.area c.sharedMemBase 16 ≠ none → P.Fits c.sharedMemBase 16 → currentOut ≠ 0 →
    CbcPlaced m.InPool stack currentIv (input + i * 16) currentOut n →
    ∃ c' m', cbcLoop P stack 1 input n c i currentIv currentOut m = .ok (0, c') m' ∧
      (∀ k, k < n → m'.session.st.mem.block (currentOut + 16 * k) =
        cbc (c.core.encipher P.aes) (m.session.st.mem.block currentIv)
          (fun k => m.session.st.mem.block (input + i * 16 + 16 * k)) (k + 1)) ∧
      ∀ a, ¬m.InPool a → (a < stack ∨ stack + 16 ≤ a) →
        (a < currentOut ∨ currentOut + 16 * n ≤ a) → m'.session.st.mem a = m.session.st.mem a
  | 0, _, m, c, currentIv, currentOut, _, _, _, _, _ =>
    ⟨c, m, rfl, fun k hk => absurd hk (Nat.not_lt_zero k), fun _ _ _ _ => rfl⟩
  | n + 1, i, m, c, currentIv, currentOut, hup, harea, hfit, hout, hplaced => by
    obtain ⟨hpool, hivApart, hinApart, houtApart, hapart⟩ := id hplaced
    unfold Mem.Apart at *
    obtain ⟨c₂, m₂, hround, hcore, hfix, hpool₂, hfirst, hkeep⟩ :=
      cbcLoop_round (m := m) input n i currentIv hstack hup harea hfit hout
    -- the blocks behind it
    have hnext := hplaced.next
    have hi : input + i * 16 + 16 = input + (i + 1) * 16 := by omega
    rw [← hpool₂, hi] at hnext
    obtain ⟨c', m', hrest, hblocks, hframe⟩ := cbcLoop_memcpy hstack (i + 1) (hfix.updates hup)
      (by rwa [hfix.sharedMemBase_eq]) (by rwa [hfix.sharedMemBase_eq]) (by omega) hnext
    refine ⟨c', m', hround.trans hrest, fun k hk => ?_, fun a h1 h2 h3 => ?_⟩
    · cases k with
      | zero =>
        rw [← hfirst]
        refine Mem.block_congr fun a h1 h2 => hframe a ?_ (by omega) (by omega)
        rw [hpool₂]
        exact hpool a (by omega)
      | succ k =>
        have hblock := hblocks k (by omega)
        have hpos : currentOut + 16 + 16 * k = currentOut + 16 * (k + 1) := by omega
        rw [hpos, hcore, hfirst] at hblock
        rw [hblock]
        refine (cbc_congr fun t ht => ?_).trans (cbc_shift ..)
        have hmsg : input + (i + 1) * 16 + 16 * t = input + i * 16 + 16 * (t + 1) := by omega
        rw [hmsg]
        exact Mem.block_congr fun a h2 h3 => hkeep a (hpool a (by omega)) (by omega) (by omega)
    · rw [hframe a (by rwa [hpool₂]) h2 (by omega), hkeep a h1 h2 (by omega)]

/-! ## The two paths -/

/-- The call for `n` blocks returns 0, and leaves the chained blocks in the output. -/
def CbcRight (P : Platform) (stack : Nat) (mode : Int) (m : Machine) (c : FpgaAes)
    (input output iv n : Nat) (E : Block → Block) : Prop :=
  ∃ c' m', aesEncryptCbcRun P stack c input (16 * n) output iv mode m = .ok (0, c') m' ∧
    ∀ k, k < n → m'.session.st.mem.block (output + 16 * k) =
      cbc E (m.session.st.mem.block iv) (fun k => m.session.st.mem.block (input + 16 * k)) (k + 1)

/-- The number of rounds of the loop. -/
theorem cbcRun_eq {stack input output iv n : Nat} {mode : Int} (hn : n < 2 ^ 31) :
    aesEncryptCbcRun P stack c input (16 * n) output iv mode =
      cbcLoop P stack mode input n c 0 iv output := by
  rw [aesEncryptCbcRun, Nat.mul_div_cancel_left _ (by decide), cInt_of_lt hn, Int.toNat_natCast]

/-- **Through the shared memory the chaining is right**, for any number of blocks. -/
theorem cbc_memcpy {stack input output iv n : Nat} (hup : c.Updates)
    (harea : P.area c.sharedMemBase 16 ≠ none) (hfit : P.Fits c.sharedMemBase 16)
    (hstack : stack ≠ 0) (hout : output ≠ 0) (hn : n < 2 ^ 31)
    (hplaced : CbcPlaced m.InPool stack iv input output n) :
    CbcRight P stack 1 m c input output iv n (c.core.encipher P.aes) := by
  obtain ⟨c', m', hrun, hblocks, -⟩ := cbcLoop_memcpy hstack 0 hup harea hfit hout
    (show CbcPlaced m.InPool stack iv (input + 0 * 16) output n by rwa [Nat.zero_mul, Nat.add_zero])
  rw [Nat.zero_mul, Nat.add_zero] at hblocks
  exact ⟨c', m', by rw [cbcRun_eq hn, hrun], hblocks⟩

/-- **Through the allocator's buffers it never returns 0**, with a block to encipher: either
`memmgr_assert` rejects the array on the stack, or the loop takes the number of bytes for an
error. -/
theorem cbc_memmgr_fails {stack input output iv n : Nat} {E : Block → Block}
    (hloc : c.lastLocation < 16) (hpos : n ≠ 0) (hn : n < 2 ^ 31) :
    ¬CbcRight P stack 0 m c input output iv n E := by
  rintro ⟨c', m', hrun, -⟩
  rw [cbcRun_eq hn] at hrun
  obtain ⟨k, rfl⟩ := Nat.exists_eq_succ_of_ne_zero hpos
  rw [cbcLoop] at hrun
  obtain ⟨_, _, -, hrun⟩ := eq_ok_of_bind hrun
  obtain ⟨_, _, -, hrun⟩ := eq_ok_of_bind hrun
  obtain ⟨⟨rc, c₁⟩, m₁, hcall, hrun⟩ := eq_ok_of_bind hrun
  rw [cbcEncrypt, if_neg (by decide)] at hcall
  obtain ⟨rfl, -⟩ := (memmgr_ok hloc hcall).2.2 (by decide)
  have hrc : ((16 : Nat) : Int) ≠ 0 := by decide
  dsimp only at hrun
  rw [if_pos hrc] at hrun
  obtain ⟨hres, -⟩ := eq_of_pure hrun
  simp only [Prod.mk.injEq] at hres
  exact absurd hres.1 (by decide)

/-- The two pages of the mapping cover the area of a call, wherever in the first of them it
begins. -/
theorem fits_of_page {base : UInt32} {len : Nat} (hlen : 2 * len ≤ P.os.pageSize.toNat)
    (hpos : 0 < P.os.pageSize.toNat)
    (hup : P.os.pageSize.toNat < 2 ^ 31) : P.Fits base len := by
  intro mem h
  rw [Platform.area, getSharedMemoryArea] at h
  dsimp only at h
  split at h
  · exact absurd h (by simp)
  split at h
  · exact absurd h (by simp)
  split at h
  · exact absurd h (by simp)
  split at h
  · obtain rfl := Option.some.inj h
    have hoff : (base.toUInt64 - base.toUInt64 / P.os.pageSize.toUInt64 *
        P.os.pageSize.toUInt64).toUInt32.toNat ≤ P.os.pageSize.toNat := by
      have hdiv : (base.toUInt64 / P.os.pageSize.toUInt64 * P.os.pageSize.toUInt64).toNat =
          base.toNat / P.os.pageSize.toNat * P.os.pageSize.toNat := by
        have hle := Nat.div_mul_le_self base.toNat P.os.pageSize.toNat
        have hlt := base.toNat_lt
        rw [UInt64.toNat_mul, UInt64.toNat_div, UInt32.toNat_toUInt64, UInt32.toNat_toUInt64]
        exact Nat.mod_eq_of_lt (by omega)
      have hle := Nat.div_mul_le_self base.toNat P.os.pageSize.toNat
      have hsub := Nat.mod_lt base.toNat (show 0 < P.os.pageSize.toNat by omega)
      rw [UInt64.toNat_toUInt32, UInt64.toNat_sub_of_le _ _ (UInt64.le_iff_toNat_le.2 (by
        rw [hdiv, UInt32.toNat_toUInt64]
        exact hle)), hdiv, UInt32.toNat_toUInt64]
      rw [Nat.mod_eq_sub_div_mul] at hsub
      exact (Nat.mod_le ..).trans hsub.le
    have htwo : (2 * P.os.pageSize).toNat = 2 * P.os.pageSize.toNat := by
      rw [UInt32.toNat_mul]
      exact Nat.mod_eq_of_lt (by show 2 * P.os.pageSize.toNat < 2 ^ 32; omega)
    show _ + 2 * len ≤ (2 * P.os.pageSize).toNat
    rw [htwo]
    dsimp only
    omega
  · exact absurd h (by simp)

/-- **The two paths agree exactly on the empty message.**  The one through the shared memory is
right on every message. -/
theorem cbc_paths (m₁ m₀ : Machine) {stack₁ input₁ output₁ iv₁ : Nat}
    (stack₀ input₀ output₀ iv₀ n : Nat) {r₁ r₀ : NewReply} {key civ₁ civ₀ : List UInt8}
    {base₁ base₀ : UInt32} {ivLength₁ ivLength₀ : Nat} {mode₁ mode₀ : Int} {c₁ c₀ : FpgaAes}
    {s : Memmgr.State} {buffer : Nat} {length baseAddress : UInt32} (hkey : key.length = 16)
    (hnew₁ : fpgaAesNew r₁ key base₁ civ₁ ivLength₁ mode₁ = some c₁)
    (hnew₀ : fpgaAesNew r₀ key base₀ civ₀ ivLength₀ mode₀ = some c₀)
    (harea : P.area base₁ 16 ≠ none) (hpage : 32 ≤ P.os.pageSize.toNat)
    (hpage' : P.os.pageSize.toNat < 2 ^ 31) (hstack : stack₁ ≠ 0) (hout : output₁ ≠ 0)
    (hplaced : CbcPlaced m₁.InPool stack₁ iv₁ input₁ output₁ n) (hs : s.session = 0)
    (hp : buffer = 0 ∨ Memmgr.Placed P.env buffer length)
    (hS : Memmgr.Reachable P.env s buffer length baseAddress m₀.session)
    (hin : m₀.session.Owns input₀ (16 * n)) :
    CbcRight P stack₁ 1 m₁ c₁ input₁ output₁ iv₁ n (P.aes (blockOf key)) ∧
      (CbcRight P stack₁ 1 m₁ c₁ input₁ output₁ iv₁ n (P.aes (blockOf key)) ∧
        CbcRight P stack₀ 0 m₀ c₀ input₀ output₀ iv₀ n (P.aes (blockOf key)) ↔ n = 0) := by
  obtain ⟨bs, I⟩ := hS.inv hs hp
  obtain ⟨-, -, hlow, hroom⟩ := I.placed hin
  have hsize := m₀.session.st.poolSize.toNat_lt
  have hn : n < 2 ^ 31 := by omega
  obtain ⟨-, hbase, hkeyIn, hup⟩ := new_eq hnew₁
  have hE : c₁.core.encipher P.aes = P.aes (blockOf key) := by
    rw [Core.encipher, show c₁.core.key = Words.pack key from hkeyIn, toBytes_pack hkey]
  have hright := cbc_memcpy (P := P) (c := c₁) hup (by rwa [hbase])
    (by rw [hbase]; exact fits_of_page hpage (by omega) hpage') hstack hout hn hplaced
  rw [hE] at hright
  refine ⟨hright, fun h => ?_, ?_⟩
  · by_contra hpos
    exact cbc_memmgr_fails (by rw [(new_eq hnew₀).1]; decide) hpos hn h.2
  · rintro rfl
    exact ⟨hright, c₀, m₀, by rw [cbcRun_eq hn]; rfl, fun k hk => absurd hk (Nat.not_lt_zero k)⟩

/-- Two blocks, on the stack for the one path and in the pool for the other. -/
theorem cbc_paths_zynq : ∃ S,
    Memmgr.Reachable Env.zynq (Memmgr.State.loaded fun _ => 0) 0x100000 0x800000 0x1f410000 S ∧
      CbcRight (Platform.mapped benchAes) 0x2000 1 (Machine.on S) benchCipher 0x3000 0x4000
        0x5000 2 (benchAes (blockOf (List.replicate 16 0))) ∧
      ¬CbcRight (Platform.mapped benchAes) 0x2000 0 (Machine.on S) benchCipher 0x100014 0x20002c
        0x5000 2 (benchAes (blockOf (List.replicate 16 0))) := by
  obtain ⟨S, hS, hlive, -, hpool, -⟩ := bench_reachable
  have hplaced : CbcPlaced (Machine.on S).InPool 0x2000 0x5000 0x3000 0x4000 2 := by
    refine ⟨?_, by unfold Mem.Apart; decide, by unfold Mem.Apart; decide,
      by unfold Mem.Apart; decide, Or.inr (by decide)⟩
    rintro a ha ⟨-, hlow, -⟩
    rw [show (Machine.on S).session.st.pool = 0x100000 from hpool] at hlow
    omega
  obtain ⟨h₁, h⟩ := cbc_paths (P := Platform.mapped benchAes) (s := .loaded fun _ => 0)
    (Machine.on S) (Machine.on S) 0x2000 0x100014 0x20002c 0x5000 2 (by rfl) benchCipher_new
    benchCipher_new (by rw [mapped_area]; exact Option.some_ne_none _) (by decide) (by decide)
    (by decide) (by decide) hplaced rfl (Or.inr zynq_placed_shared) hS
    ⟨0x100014, 0x100000, by simp [Machine.on, hlive], by decide, by decide⟩
  exact ⟨S, hS, h₁, fun h₀ => absurd (h.1 ⟨h₁, h₀⟩) (by decide)⟩

/-- A pointer below the pool is rejected. -/
theorem not_memmgrAssert_below {e : Env} {s : Memmgr.State} {ap : Nat}
    (h : UInt32.ofNat ap < UInt32.ofNat s.pool) : Memmgr.memmgrAssert e s ap = false := by
  rw [Memmgr.memmgrAssert]
  split
  · rfl
  · exact if_pos (Or.inr h)

/-- **One block through the allocator's buffers**: with the stack below the pool the call aborts. -/
theorem cbc_aborts : ∃ S,
    Memmgr.Reachable Env.zynq (Memmgr.State.loaded fun _ => 0) 0x100000 0x800000 0x1f410000 S ∧
      S.Owns 0x100014 16 ∧ S.Owns 0x20002c 16 ∧ ∀ aes, ∃ m',
        aesEncryptCbcRun (Platform.mapped aes) 0x2000 benchCipher 0x100014 16 0x20002c 0x5000 0
          (Machine.on S) = .error .abort m' := by
  obtain ⟨S, hS, hlive, -, hpool, -⟩ := bench_reachable
  refine ⟨S, hS, ⟨0x100014, 0x100000, by simp [hlive], by decide, by decide⟩,
    ⟨0x20002c, 0x100000, by simp [hlive], by decide, by decide⟩, fun aes => ?_⟩
  have e₀ : (MonadState.get : Prog Machine) (Machine.on S) =
      .ok (Machine.on S) (Machine.on S) := rfl
  have e₁ := copyTo_ok (m := Machine.on S) (p := 0x2000) (n := 16) (by decide) fun j =>
    (Machine.on S).session.st.mem (0x5000 + j) ^^^
      (Machine.on S).session.st.mem (0x100014 + 0 * 16 + j)
  generalize hm₁ : (Machine.on S).withMem _ = m₁ at e₁
  have hpool₁ : m₁.session.st.pool = 0x100000 := by rw [← hm₁]; exact hpool
  have e₂ : memmgrAssert (Platform.mapped aes) 0x2000 m₁ = .error .abort m₁ := by
    rw [memmgrAssert, not_memmgrAssert_below (by rw [hpool₁]; decide)]
    rfl
  have e₃ : cbcEncrypt (Platform.mapped aes) 0 benchCipher 0x20002c 0x2000 16 m₁ =
      .error .abort m₁ := by
    rw [cbcEncrypt, if_neg (by decide), aesEncryptMemmgr, bind_of_error e₂]
  refine ⟨m₁, ?_⟩
  rw [cbcRun_eq (n := 1) (by decide), cbcLoop, bind_of_ok e₀, bind_of_ok e₁, bind_of_error e₃]

end Zedboard
