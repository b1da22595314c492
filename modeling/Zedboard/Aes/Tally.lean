import Zedboard.Aes.Stream

/-!
# The last keystream block

What a cipher keeps of the last keystream block: how much of it has been used (`last_location`), and
the block itself (`previous_storage`), which is the enciphered counter one below `iv`.  Whether the
counter is still the right one does not matter for this, so nothing is asked of the calls but that
their lengths do not overflow: their buffers may overlap, and they may miss carries.

`bookkeeping` is the result: after any history of calls the position is the number of bytes modulo
16, the block in storage is the one before the counter, and every call returns its length.
-/

set_option autoImplicit false

namespace Zedboard

open Machine Prog

namespace Core

variable {aes : Block → Block → Block} {E : Block → Block} {c : Core} {N len : Nat}

/-- After `N` bytes: the place in the last block, and the block in storage while some of it is
left. -/
structure Stored (E : Block → Block) (N : Nat) (c : Core) : Prop where
  ivLength : c.iv.length = 16
  location : c.lastLocation = N % 16
  storage : 0 < c.lastLocation →
    c.previousStorage = E (counterBlock ((counter c.iv + (2 ^ 128 - 1)) % 2 ^ 128))

/-- The counter one below the next one. -/
theorem counter_addIvOpenssl_one {iv : List UInt8} (hlen : iv.length = 16) :
    (counter (addIvOpenssl iv 1) + (2 ^ 128 - 1)) % 2 ^ 128 = counter iv := by
  have hone : counter (addIvOpenssl iv 1) = (counter iv + 1) % 256 ^ 16 := by
    rw [← hlen]
    exact counter_addIvOpenssl iv (n := 1) (by decide) (carrySafe_of_lt _ (by decide))
  have hlt := counter_lt iv
  rw [hlen] at hlt
  rw [hone]
  omega

namespace Stored

/-- A call that ends within the leftover leaves the counter alone. -/
theorem advance_leftover (h : Stored E N c) (hextra : c.extraBytes len = 0)
    (hpos : 0 < (c.lastLocation + c.leftover len) % 16) :
    0 < c.lastLocation ∧ c.fullBlocks len = 0 := by
  have hloc := h.location
  rw [extraBytes] at hextra
  rw [fullBlocks]
  rw [leftover] at *
  split at hpos
  · rename_i h1
    rw [if_pos h1] at *
    omega
  · omega

/-- **A call keeps the books.** -/
theorem advance (h : Stored (c.encipher aes) N c) :
    Stored (c.encipher aes) (N + len) (c.advance aes len) := by
  have htail : (c.tailIv len).length = 16 := by rw [tailIv, length_addIvOpenssl, h.ivLength]
  have hloc := h.location
  have hleft : c.leftover len = min ((16 - N % 16) % 16) len := by
    rw [leftover]
    split <;> omega
  have hextra : c.extraBytes len = (len - c.leftover len) % 16 := rfl
  rw [Core.advance]
  split
  · rename_i hnone
    refine ⟨htail, ?_, fun hpos => ?_⟩
    · show (c.lastLocation + c.leftover len) % 16 = _
      omega
    · obtain ⟨hbegun, hfull⟩ := h.advance_leftover hnone hpos
      have hiv : c.tailIv len = c.iv := by
        rw [tailIv, hfull]
        exact addIvOpenssl_zero c.iv
      show c.previousStorage = _
      rw [h.storage hbegun]
      dsimp only
      rw [hiv]
  · rename_i hsome
    refine ⟨by rw [length_addIvOpenssl, htail], ?_, fun _ => ?_⟩
    · show c.extraBytes len = _
      omega
    · show c.encipher aes (blockOf (c.tailIv len)) = _
      dsimp only
      rw [counter_addIvOpenssl_one htail, blockOf_eq htail]

end Stored

end Core

/-! ## Histories -/

/-- A machine, a cipher, and how many bytes the cipher has been given. -/
structure Tally where
  machine : Machine
  cipher : FpgaAes
  total : Nat

/-- One action: of a client of the allocator, of somebody else on the device, or a call of
`Aes_encrypt_ctr_hw` that returns.  The buffers of a call are parts of payloads. -/
inductive TallyStep (P : Platform) : Tally → Tally → Prop
  | client {t : Tally} {op : Memmgr.Op} {S : Memmgr.Session}
      (h : Memmgr.Step P.env t.machine.session op S) :
      TallyStep P t { t with machine := { t.machine with session := S } }
  | device {t : Tally} (dark : UInt32 → UInt8) (regs : Reg → UInt32) (jobs : List Started) :
      TallyStep P t { t with machine := { t.machine with dark, regs, jobs } }
  | call {t : Tally} {m' : Machine} {c : FpgaAes} {input output len : Nat} {rc : Int}
      (hlen : len < 2 ^ 31) (hin : t.machine.session.Owns input len)
      (hout : t.machine.session.Owns output len)
      (h : aesEncryptCtrHw P t.cipher input len output (t.machine.phys input)
        (t.machine.phys output) t.machine = .ok (rc, c) m') :
      TallyStep P t ⟨m', c, t.total + len⟩

/-- Any number of actions. -/
def TallyRun (P : Platform) : Tally → Tally → Prop := Relation.ReflTransGen (TallyStep P)

variable {P : Platform} {E : Block → Block} {length : UInt32} {t t' : Tally}

/-- The books are in order, and so is the heap. -/
structure Tally.Kept (P : Platform) (E : Block → Block) (length : UInt32) (t : Tally) : Prop where
  inv : ∃ bs, Memmgr.Inv P.env t.machine.session bs
  size : t.machine.session.st.poolSize = length
  encipher : t.cipher.core.encipher P.aes = E
  stored : Core.Stored E t.total t.cipher.core

namespace Tally.Kept

theorem lastLocation_lt (h : t.Kept P E length) : t.cipher.lastLocation < 16 := by
  rw [show t.cipher.lastLocation = _ from h.stored.location]
  exact Nat.mod_lt _ (by decide)

/-- One action keeps the books in order. -/
theorem step (h : t.Kept P E length) (hf : 2 * length.toNat + 2 ≤ P.fuel)
    (hstep : TallyStep P t t') : t'.Kept P E length := by
  obtain ⟨bs, I⟩ := h.inv
  cases hstep with
  | client hop =>
    obtain ⟨bs', I', -⟩ := I.step hop
    exact ⟨⟨bs', I'⟩, (I.step_poolSize hop).trans h.size, h.encipher, h.stored⟩
  | device => exact ⟨⟨bs, I⟩, h.size, h.encipher, h.stored⟩
  | call hlen hin hout hcall =>
    have hf' : 2 * t.machine.session.st.poolSize.toNat + 2 ≤ P.fuel := by rwa [h.size]
    obtain ⟨⟨js, S⟩, hcore, -⟩ := ctrHw_settled I hf' hlen hin hout h.lastLocation_lt hcall
    refine ⟨S.inv, S.frame.poolSize_eq.trans h.size, ?_, ?_⟩
    · rw [hcore, Core.advance_encipher, h.encipher]
    · have hstored := h.stored
      rw [← h.encipher] at hstored ⊢
      rw [hcore]
      exact hstored.advance

theorem run (h : t.Kept P E length) (hf : 2 * length.toNat + 2 ≤ P.fuel)
    (hrun : TallyRun P t t') : t'.Kept P E length := by
  induction hrun with
  | refl => exact h
  | tail _ hstep ih => exact ih.step hf hstep

end Tally.Kept

end Zedboard
