import Mathlib.Logic.Relation
import Zedboard.Aes.CtrHw

/-!
# What the calls make of a cipher

The counters of a cipher, and its place in the last keystream block, depend on the lengths of the
calls only, whatever the machine does meanwhile.  So what is known of them holds after any calls
that have returned, on any machine and with any buffers.

`Encrypts P c len c'` is one returned call of an encryption function, which hands `len` bytes to
counter mode, and `Used` is a whole history of calls.  The two copies of the counter stay in step
through a history whose additions miss no carry (`counters_in_step`).
-/

set_option autoImplicit false

namespace Zedboard

open Machine Prog

variable {P : Platform} {m m' : Machine} {c c' : FpgaAes} {input output n len i : Nat} {rc : Int}

/-- What no call changes: the length of the counter, the address of the shared memory, and that all
parameters are to be written. -/
structure Fixed (c c' : FpgaAes) : Prop where
  ivLength_eq : c'.ivLength = c.ivLength
  sharedMemBase_eq : c'.sharedMemBase = c.sharedMemBase
  updates : c.Updates → c'.Updates

namespace Fixed

theorem refl (c : FpgaAes) : Fixed c c := ⟨rfl, rfl, id⟩

theorem trans {c'' : FpgaAes} (h : Fixed c c') (h' : Fixed c' c'') : Fixed c c'' :=
  ⟨h'.ivLength_eq.trans h.ivLength_eq, h'.sharedMemBase_eq.trans h.sharedMemBase_eq,
    fun hup => h'.updates (h.updates hup)⟩

theorem updating (c : FpgaAes) : Fixed c c.updating := ⟨rfl, rfl, fun _ => updating_updates c⟩

theorem addIv (c : FpgaAes) (num : UInt32) : Fixed c (addIvCipher c num) := ⟨rfl, rfl, id⟩

theorem begun (c : FpgaAes) (src : UInt32) (len : Nat) : Fixed c (c.begun src len) := ⟨rfl, rfl, id⟩

end Fixed

/-! ## Counter mode -/

theorem aesEncrypt_ok {source dest : UInt32} {mode : Int}
    (h : aesEncrypt P c len source dest mode m = .ok c' m') : c'.core = c.core ∧ Fixed c c' := by
  cases h
  exact ⟨rfl, rfl, rfl, id⟩

theorem ctrTail_ok (h : ctrTail P c input output n m = .ok c' m') :
    c'.core = { c.core with
      iv := addIvOpenssl c.iv 1, ivIn := addWords c.ivIn 1, lastLocation := n,
      previousStorage := c'.previousStorage } ∧ Fixed c c' := by
  rw [ctrTail] at h
  obtain ⟨t, _, -, h⟩ := eq_ok_of_bind h
  obtain ⟨u, _, -, h⟩ := eq_ok_of_bind h
  obtain ⟨_, _, -, h⟩ := eq_ok_of_bind h
  obtain ⟨_, _, -, h⟩ := eq_ok_of_bind h
  obtain ⟨_, _, -, h⟩ := eq_ok_of_bind h
  obtain ⟨c₁, _, h₁, h⟩ := eq_ok_of_bind h
  obtain ⟨storage, _, -, h⟩ := eq_ok_of_bind h
  obtain ⟨_, _, -, h⟩ := eq_ok_of_bind h
  obtain ⟨_, _, -, h⟩ := eq_ok_of_bind h
  obtain ⟨_, _, -, h⟩ := eq_ok_of_bind h
  obtain ⟨rfl, rfl⟩ := eq_of_pure h
  obtain ⟨hcore, hfix⟩ := aesEncrypt_ok h₁
  have hkey : c₁.keyIn = c.keyIn := congrArg Core.key hcore
  have hiv : c₁.iv = c.iv := congrArg Core.iv hcore
  have hwords : c₁.ivIn = c.ivIn := congrArg Core.ivIn hcore
  refine ⟨?_, hfix.ivLength_eq, hfix.sharedMemBase_eq, hfix.updates⟩
  simp only [FpgaAes.core, addIvCipher, hkey, hiv, hwords]

/-- What the rest of a call leaves, for lengths that do not overflow. -/
theorem ctrRest_ok {src dest : UInt32} (hlen : len < 2 ^ 31) (hloc : c.lastLocation = 0)
    (h : ctrRest P c input len output src dest i m = .ok (rc, c') m') :
    rc = len ∧ Fixed c c' ∧
      c'.core = { c.core.advance P.aes (len - i) with previousStorage := c'.previousStorage } := by
  rw [ctrRest_eq c input output src dest (by omega), cInt_of_lt hlen] at h
  obtain ⟨c₁, m₁, h₁, h⟩ := eq_ok_of_bind h
  obtain ⟨hcore₁, hfix₁⟩ := aesEncrypt_ok h₁
  have hfix₂ := ((Fixed.updating c).trans hfix₁).trans
    (.addIv c₁ (UInt32.ofNat ((len - i) / 16)))
  have h0 : c.core.leftover (len - i) = 0 := Core.leftover_of_zero hloc
  have hfull : c.core.fullBlocks (len - i) = (len - i) / 16 := by rw [Core.fullBlocks, h0]; rfl
  have hextra : c.core.extraBytes (len - i) = (len - i) % 16 := by rw [Core.extraBytes, h0]; rfl
  have hcore₂ : (addIvCipher c₁ (UInt32.ofNat ((len - i) / 16))).core = { c.core with
      iv := c.core.tailIv (len - i), ivIn := c.core.tailWords (len - i) } := by
    have hcore : c₁.core = c.core := hcore₁
    rw [Core.tailIv, Core.tailWords, hfull, ← hcore]
    rfl
  dsimp only at h
  by_cases hr : (len - i) % 16 = 0
  · rw [if_neg (by omega)] at h
    obtain ⟨hres, -⟩ := eq_of_pure h
    obtain ⟨rfl, rfl⟩ := Prod.mk.inj hres
    refine ⟨rfl, hfix₂, ?_⟩
    have hstorage : (addIvCipher c₁ (UInt32.ofNat ((len - i) / 16))).previousStorage =
        c.core.previousStorage := congrArg Core.previousStorage hcore₂
    have hloc' : c.core.lastLocation = 0 := hloc
    rw [hcore₂, Core.advance, if_pos (hextra.trans hr), h0, hstorage]
    dsimp only
    rw [hloc']
  · rw [if_pos (by omega)] at h
    obtain ⟨c₂, m₂, h₂, h⟩ := eq_ok_of_bind h
    obtain ⟨hres, -⟩ := eq_of_pure h
    obtain ⟨rfl, rfl⟩ := Prod.mk.inj hres
    obtain ⟨hcore₃, hfix₃⟩ := ctrTail_ok h₂
    have hiv : (addIvCipher c₁ (UInt32.ofNat ((len - i) / 16))).iv = c.core.tailIv (len - i) :=
      congrArg Core.iv hcore₂
    have hwords : (addIvCipher c₁ (UInt32.ofNat ((len - i) / 16))).ivIn =
        c.core.tailWords (len - i) := congrArg Core.ivIn hcore₂
    refine ⟨rfl, hfix₂.trans hfix₃, ?_⟩
    rw [hcore₃, hcore₂, Core.advance, if_neg (by rwa [hextra]), hextra, hiv, hwords]

/-- The place in the last block stays in the block, also where lengths overflow. -/
theorem ctrRest_lastLocation_lt {src dest : UInt32} (hloc : c.lastLocation < 16)
    (h : ctrRest P c input len output src dest i m = .ok (rc, c') m') :
    c'.lastLocation < 16 ∧ Fixed c c' := by
  rw [ctrRest] at h
  dsimp only at h
  obtain ⟨c₁, m₁, h₁, h⟩ := eq_ok_of_bind h
  obtain ⟨hcore₁, hfix₁⟩ := aesEncrypt_ok h₁
  have hfix₂ := ((Fixed.updating c).trans hfix₁).trans
    (.addIv c₁ (UInt32.ofInt ((cInt (len - i)).tdiv 16)))
  have hloc₁ : c₁.lastLocation = c.lastLocation := congrArg Core.lastLocation hcore₁
  split at h
  · obtain ⟨c₂, m₂, h₂, h⟩ := eq_ok_of_bind h
    obtain ⟨hres, -⟩ := eq_of_pure h
    obtain ⟨-, rfl⟩ := Prod.mk.inj hres
    obtain ⟨hcore₃, hfix₃⟩ := ctrTail_ok h₂
    have hloc₃ := congrArg Core.lastLocation hcore₃
    refine ⟨?_, hfix₂.trans hfix₃⟩
    rw [show c'.lastLocation = _ from hloc₃]
    have := Int.tmod_lt_of_pos (cInt (len - i)) (by decide : (0 : Int) < 16)
    dsimp only
    omega
  · obtain ⟨hres, -⟩ := eq_of_pure h
    obtain ⟨-, rfl⟩ := Prod.mk.inj hres
    refine ⟨?_, hfix₂⟩
    rw [show (addIvCipher c₁ _).lastLocation = c₁.lastLocation from rfl, hloc₁]
    exact hloc

/-- **What a call leaves in the cipher**, on any machine. -/
theorem ctrHw_ok {src dest : UInt32} (hloc : c.lastLocation < 16)
    (h : aesEncryptCtrHw P c input len output src dest m = .ok (rc, c') m') :
    c'.lastLocation < 16 ∧ Fixed c c' ∧
      (len < 2 ^ 31 → rc = len ∧
        c'.core = { c.core.advance P.aes len with previousStorage := c'.previousStorage }) := by
  obtain ⟨f, hrun, -⟩ := ctrHw_leftover P m c input output len src dest
  rw [hrun] at h
  have hbegun : (c.begun src len).lastLocation < 16 := by
    rw [FpgaAes.begun]
    dsimp only
    split <;> omega
  by_cases hshort : 0 < c.lastLocation ∧ len ≤ c.core.leftover len
  · rw [if_pos hshort] at h
    obtain ⟨hres, -⟩ := eq_of_pure h
    obtain ⟨rfl, rfl⟩ := Prod.mk.inj hres
    refine ⟨hbegun, .begun c src len, fun hlen => ⟨cInt_of_lt hlen, ?_⟩⟩
    have hall : c.core.leftover len = len := Nat.le_antisymm (leftover_le _ _) hshort.2
    rw [Core.advance_of_short hloc hshort.2 hshort.1, begun_core, hall]
    rfl
  · rw [if_neg hshort] at h
    obtain ⟨hloc', hfix⟩ := ctrRest_lastLocation_lt hbegun h
    refine ⟨hloc', (Fixed.begun c src len).trans hfix, fun hlen => ?_⟩
    have hgo : c.core.leftover len < len ∨ c.core.lastLocation = 0 := by
      have : ¬(0 < c.core.lastLocation ∧ len ≤ c.core.leftover len) := hshort
      omega
    obtain ⟨hrc, -, hcore⟩ := ctrRest_ok hlen (Core.used_leftover hloc hgo).1 h
    exact ⟨hrc, by rw [hcore, begun_core, Core.advance_used hloc hgo]⟩

/-! ## The other functions -/

theorem memmgr_ok (hloc : c.lastLocation < 16)
    (h : aesEncryptMemmgr P c output input len m = .ok (rc, c') m') :
    c'.lastLocation < 16 ∧ Fixed c c' ∧
      (len < 2 ^ 31 → rc = len ∧
        c'.core = { c.core.advance P.aes len with previousStorage := c'.previousStorage }) := by
  rw [aesEncryptMemmgr] at h
  obtain ⟨_, _, -, h⟩ := eq_ok_of_bind h
  obtain ⟨_, _, -, h⟩ := eq_ok_of_bind h
  obtain ⟨_, _, -, h⟩ := eq_ok_of_bind h
  obtain ⟨_, _, -, h⟩ := eq_ok_of_bind h
  exact ctrHw_ok hloc h

/-- The memcpy path leaves the counter alone. -/
theorem memcpy_ok (h : aesEncryptMemcpy P c output input len m = .ok (rc, c') m') :
    c'.core = c.core ∧ Fixed c c' := by
  rw [aesEncryptMemcpy] at h
  cases hmem : (getSharedMemoryArea P.os c.sharedMemBase.toUInt64 (UInt32.ofNat (len * 3))).1 with
  | none =>
    rw [hmem] at h
    obtain ⟨hres, -⟩ := eq_of_pure h
    obtain ⟨-, rfl⟩ := Prod.mk.inj hres
    exact ⟨rfl, .refl c'⟩
  | some mem =>
    rw [hmem] at h
    obtain ⟨_, _, -, h⟩ := eq_ok_of_bind h
    obtain ⟨_, _, -, h⟩ := eq_ok_of_bind h
    obtain ⟨c₁, _, h₁, h⟩ := eq_ok_of_bind h
    obtain ⟨_, _, -, h⟩ := eq_ok_of_bind h
    obtain ⟨hres, -⟩ := eq_of_pure h
    obtain ⟨-, rfl⟩ := Prod.mk.inj hres
    exact aesEncrypt_ok h₁

/-- In mode 0 the loop ends with its first call, because what that returns is not 0; in mode 1 it
leaves the counter alone. -/
theorem cbcLoop_ok {stack : Nat} {mode : Int} :
    ∀ {n i : Nat} {c c' : FpgaAes} {rc : Int} {m m' : Machine} {currentIv currentOut : Nat},
      c.lastLocation < 16 →
      cbcLoop P stack mode input n c i currentIv currentOut m = .ok (rc, c') m' →
      c'.lastLocation < 16 ∧ Fixed c c' ∧ (c'.core = c.core ∨
        c'.core = { c.core.advance P.aes 16 with previousStorage := c'.previousStorage })
  | 0, _, _, _, _, _, _, _, _, hloc, h => by
    obtain ⟨hres, -⟩ := eq_of_pure h
    obtain ⟨-, rfl⟩ := Prod.mk.inj hres
    exact ⟨hloc, .refl _, Or.inl rfl⟩
  | n + 1, i, c, c', rc, m, m', currentIv, currentOut, hloc, h => by
    rw [cbcLoop] at h
    obtain ⟨_, _, -, h⟩ := eq_ok_of_bind h
    obtain ⟨_, m₁, -, h⟩ := eq_ok_of_bind h
    obtain ⟨⟨rc₁, c₁⟩, m₂, h₁, h⟩ := eq_ok_of_bind h
    dsimp only at h
    rw [cbcEncrypt] at h₁
    by_cases hmode : mode = 1
    · rw [if_pos hmode] at h₁
      obtain ⟨hcore, hfix⟩ := memcpy_ok h₁
      have hloc₁ : c₁.lastLocation < 16 := by
        rw [show c₁.lastLocation = c.lastLocation from congrArg Core.lastLocation hcore]
        exact hloc
      split at h
      · obtain ⟨hres, -⟩ := eq_of_pure h
        obtain ⟨-, rfl⟩ := Prod.mk.inj hres
        exact ⟨hloc₁, hfix, Or.inl hcore⟩
      · obtain ⟨hloc', hfix', hcore'⟩ := cbcLoop_ok hloc₁ h
        rw [hcore] at hcore'
        exact ⟨hloc', hfix.trans hfix', hcore'⟩
    · rw [if_neg hmode] at h₁
      obtain ⟨hloc₁, hfix, hres⟩ := memmgr_ok hloc h₁
      obtain ⟨rfl, hcore⟩ := hres (by decide)
      rw [if_pos (by decide)] at h
      obtain ⟨hres, -⟩ := eq_of_pure h
      obtain ⟨-, rfl⟩ := Prod.mk.inj hres
      exact ⟨hloc₁, hfix, Or.inr hcore⟩

theorem ctrRunLoop_ok :
    ∀ {n : Nat} {c c' : FpgaAes} {m m' : Machine} {iv : List UInt8} {currentIn currentOut : Nat}
      {src dest : UInt32},
      ctrRunLoop P n c iv currentIn currentOut src dest m = .ok c' m' →
      c'.core = c.core ∧ Fixed c c'
  | 0, _, _, _, _, _, _, _, _, _, h => by
    obtain ⟨rfl, -⟩ := eq_of_pure h
    exact ⟨rfl, .refl _⟩
  | n + 1, c, c', m, m', iv, currentIn, currentOut, src, dest, h => by
    rw [ctrRunLoop] at h
    obtain ⟨_, _, -, h⟩ := eq_ok_of_bind h
    obtain ⟨_, _, -, h⟩ := eq_ok_of_bind h
    obtain ⟨c₁, _, h₁, h⟩ := eq_ok_of_bind h
    obtain ⟨_, _, -, h⟩ := eq_ok_of_bind h
    obtain ⟨_, _, -, h⟩ := eq_ok_of_bind h
    obtain ⟨hcore₁, hfix₁⟩ := aesEncrypt_ok h₁
    obtain ⟨hcore, hfix⟩ := ctrRunLoop_ok h
    exact ⟨hcore.trans hcore₁, hfix₁.trans hfix⟩

/-! ## Histories -/

/-- One call of an encryption function that returns, on any machine; it hands `len` bytes to counter
mode. -/
inductive Encrypts (P : Platform) : FpgaAes → Nat → FpgaAes → Prop
  | ctrHw {c c' : FpgaAes} {m m' : Machine} {input len output : Nat} {src dest : UInt32} {rc : Int}
      (h : aesEncryptCtrHw P c input len output src dest m = .ok (rc, c') m') : Encrypts P c len c'
  | memmgr {c c' : FpgaAes} {m m' : Machine} {input len output : Nat} {rc : Int}
      (h : aesEncryptMemmgr P c output input len m = .ok (rc, c') m') : Encrypts P c len c'
  | memmgrWithIv {c c' : FpgaAes} {m m' : Machine} {input output : Nat}
      {outputLen inputLen : UInt32} {rc : Int}
      (h : aesEncryptMemmgrWithIv P c output outputLen input inputLen m = .ok (rc, c') m') :
      Encrypts P c inputLen.toNat c'
  | run {c c' : FpgaAes} {m m' : Machine} {len : Nat} {src dest : UInt32} {mode : Int}
      (h : aesEncryptRun P c len src dest mode m = .ok c' m') : Encrypts P c 0 c'
  | memcpy {c c' : FpgaAes} {m m' : Machine} {input len output : Nat} {rc : Int}
      (h : aesEncryptMemcpy P c output input len m = .ok (rc, c') m') : Encrypts P c 0 c'
  | cbcRun {c c' : FpgaAes} {m m' : Machine} {stack input len output iv : Nat} {mode rc : Int}
      (h : aesEncryptCbcRun P stack c input len output iv mode m = .ok (rc, c') m') :
      Encrypts P c 16 c'
  | ctrRun {c c' : FpgaAes} {m m' : Machine} {input len output : Nat} {src dest : UInt32} {rc : Int}
      (h : aesEncryptCtrRun P c input len output src dest m = .ok (rc, c') m') : Encrypts P c 0 c'

/-- **What a call of any of them leaves in the cipher.** -/
theorem Encrypts.core (h : Encrypts P c len c') (hloc : c.lastLocation < 16) :
    c'.lastLocation < 16 ∧ Fixed c c' ∧ (len < 2 ^ 31 → c'.core = c.core ∨
      c'.core = { c.core.advance P.aes len with previousStorage := c'.previousStorage }) := by
  have hsame : c'.core = c.core ∧ Fixed c c' →
      c'.lastLocation < 16 ∧ Fixed c c' ∧ (len < 2 ^ 31 → c'.core = c.core ∨
        c'.core = { c.core.advance P.aes len with previousStorage := c'.previousStorage }) := by
    rintro ⟨hcore, hfix⟩
    refine ⟨?_, hfix, fun _ => Or.inl hcore⟩
    rw [show c'.lastLocation = c.lastLocation from congrArg Core.lastLocation hcore]
    exact hloc
  cases h with
  | ctrHw h =>
    obtain ⟨h1, h2, h3⟩ := ctrHw_ok hloc h
    exact ⟨h1, h2, fun hlen => Or.inr (h3 hlen).2⟩
  | memmgr h =>
    obtain ⟨h1, h2, h3⟩ := memmgr_ok hloc h
    exact ⟨h1, h2, fun hlen => Or.inr (h3 hlen).2⟩
  | memmgrWithIv h =>
    rw [aesEncryptMemmgrWithIv] at h
    split at h
    · cases h
    · obtain ⟨_, _, -, h⟩ := eq_ok_of_bind h
      obtain ⟨⟨rc₁, c₁⟩, _, h₁, h⟩ := eq_ok_of_bind h
      obtain ⟨hres, -⟩ := eq_of_pure h
      obtain ⟨-, rfl⟩ := Prod.mk.inj hres
      obtain ⟨h1, h2, h3⟩ := memmgr_ok hloc h₁
      exact ⟨h1, h2, fun hlen => Or.inr (h3 hlen).2⟩
  | run h => exact hsame (aesEncrypt_ok h)
  | memcpy h => exact hsame (memcpy_ok h)
  | cbcRun h =>
    obtain ⟨h1, h2, h3⟩ := cbcLoop_ok hloc h
    exact ⟨h1, h2, fun _ => h3⟩
  | ctrRun h =>
    rw [aesEncryptCtrRun] at h
    obtain ⟨c₁, _, h₁, h⟩ := eq_ok_of_bind h
    obtain ⟨hres, -⟩ := eq_of_pure h
    obtain ⟨-, rfl⟩ := Prod.mk.inj hres
    exact hsame (ctrRunLoop_ok h₁)

/-- A history of calls, each of which meets the condition `Q` on the cipher before it and on its
length. -/
def Used (P : Platform) (Q : FpgaAes → Nat → Prop) : FpgaAes → FpgaAes → Prop :=
  Relation.ReflTransGen fun c c' => ∃ len, Q c len ∧ Encrypts P c len c'

theorem Used.lastLocation_lt {Q : FpgaAes → Nat → Prop} (h : Used P Q c c')
    (hloc : c.lastLocation < 16) : c'.lastLocation < 16 ∧ Fixed c c' := by
  induction h with
  | refl => exact ⟨hloc, .refl c⟩
  | tail _ hstep ih =>
    obtain ⟨len, -, hcall⟩ := hstep
    obtain ⟨h1, h2, -⟩ := hcall.core ih.1
    exact ⟨h1, ih.2.trans h2⟩

/-- The length does not overflow, and the counter addition misses no carry. -/
def Safe (c : FpgaAes) (len : Nat) : Prop := len < 2 ^ 31 ∧ c.core.CallSafe len

instance (c : FpgaAes) (len : Nat) : Decidable (Safe c len) := inferInstanceAs (Decidable (_ ∧ _))

/-- A safe call keeps the counters in step. -/
theorem Core.inStep_advance {c : Core} (aes : Block → Block → Block) (h : InStep c.iv c.ivIn)
    (hlen : len < 2 ^ 31) (hsafe : c.CallSafe len) :
    InStep (c.advance aes len).iv (c.advance aes len).ivIn := by
  have hfull : c.fullBlocks len < 2 ^ 31 := by
    rw [Core.fullBlocks]
    omega
  have hstep : InStep (c.tailIv len) (c.tailWords len) := h.add hfull hsafe
  rw [Core.advance]
  split
  · exact hstep
  · exact hstep.add (n := 1) (by decide) (carrySafe_of_lt _ (by decide))

/-- A new cipher begins with a new block, and writes all its parameters. -/
theorem new_eq {r : NewReply} {key iv : List UInt8} {base : UInt32} {ivLength : Nat} {mode : Int}
    (h : fpgaAesNew r key base iv ivLength mode = some c) :
    c.lastLocation = 0 ∧ c.sharedMemBase = base ∧ c.keyIn = Words.pack key ∧ c.Updates := by
  rw [fpgaAesNew] at h
  split at h
  · obtain rfl := Option.some.inj h
    exact ⟨rfl, rfl, rfl, rfl, rfl, rfl, rfl, rfl, rfl⟩
  · exact absurd h (by simp)

theorem fresh_inStep {r : NewReply} {key iv : List UInt8} {base : UInt32} {mode : Int}
    (hc : fpgaAesNew r key base iv 16 mode = some c) (hiv : iv.length = 16) :
    InStep c.iv c.ivIn ∧ c.lastLocation = 0 ∧ c.ivLength = 16 ∧ c.keyIn = Words.pack key := by
  rw [fpgaAesNew] at hc
  split at hc
  · obtain rfl := Option.some.inj hc
    refine ⟨?_, rfl, rfl, rfl⟩
    show iv.take 16 = (Words.pack (iv.take 16)).toBytes
    rw [List.take_of_length_le (by omega), toBytes_pack hiv]
  · exact absurd hc (by simp)

theorem Used.inStep (h : Used P Safe c c') (hloc : c.lastLocation < 16)
    (hstep : InStep c.iv c.ivIn) : InStep c'.iv c'.ivIn ∧ c'.keyIn = c.keyIn := by
  induction h with
  | refl => exact ⟨hstep, rfl⟩
  | @tail c₁ c₂ hrun hcall ih =>
    obtain ⟨len, ⟨hlen, hsafe⟩, hcall⟩ := hcall
    obtain ⟨-, -, hcore⟩ := hcall.core (Used.lastLocation_lt hrun hloc).1
    rcases hcore hlen with hcore | hcore
    · exact ⟨by rw [show c₂.iv = c₁.iv from congrArg Core.iv hcore,
        show c₂.ivIn = c₁.ivIn from congrArg Core.ivIn hcore]; exact ih.1,
        (congrArg Core.key hcore).trans ih.2⟩
    · have hadv := Core.inStep_advance P.aes ih.1 hlen hsafe
      exact ⟨by rw [show c₂.iv = _ from congrArg Core.iv hcore,
        show c₂.ivIn = _ from congrArg Core.ivIn hcore]; exact hadv,
        (congrArg Core.key hcore).trans (Core.advance_key.trans ih.2)⟩

end Zedboard
