import Zedboard.Aes.Memcpy

/-!
# What is left in the shared memory

`Aes_encrypt_memcpy` copies `len` bytes back, but the core only writes the whole blocks among them.
The bytes of a last partial block are what the shared memory held before the call, whoever put it
there.  `memcpy_blind` says exactly when the output does not depend on that.
-/

set_option autoImplicit false

namespace Zedboard

open Machine Prog

variable {P : Platform} {m : Machine} {c : FpgaAes} {input output len : Nat}

/-- The output of a call that returns 0 does not depend on what the window at the base address of
the cipher holds: for any two contents that leave the input the same, it is the same. -/
def Blind (P : Platform) (c : FpgaAes) (output input len : Nat) (m : Machine) : Prop :=
  ∀ n f g c₁ c₂ m₁ m₂,
    (∀ i, i < len → (m.busFill c.sharedMemBase n f).session.st.mem (input + i) =
      (m.busFill c.sharedMemBase n g).session.st.mem (input + i)) →
    aesEncryptMemcpy P c output input len (m.busFill c.sharedMemBase n f) = .ok (0, c₁) m₁ →
    aesEncryptMemcpy P c output input len (m.busFill c.sharedMemBase n g) = .ok (0, c₂) m₂ →
    ∀ k, k < len → m₁.session.st.mem (output + k) = m₂.session.st.mem (output + k)

/-- The address is that of a byte of the input, which lies in the pool there. -/
def Machine.Sees (m : Machine) (input len : Nat) (b : UInt32) : Prop :=
  ∃ i, i < len ∧ m.InPool (input + i) ∧
    m.session.st.baseAddress + UInt32.ofNat (input + i - m.session.st.pool) = b

/-- Where the core has written nothing there is the input. -/
def Machine.Covers (m : Machine) (base : UInt32) (input len : Nat) : Prop :=
  ∀ k, len / 16 * 16 ≤ k → k < len → m.Sees input len (base + UInt32.ofNat (len + k))

/-- It is so if there are only whole blocks. -/
theorem covers_of_whole {base : UInt32} (h : len % 16 = 0) : m.Covers base input len := by
  intro k h1 h2
  omega

/-- An input outside the pool covers nothing. -/
theorem covers_iff {base : UInt32} (h : ∀ i, i < len → ¬m.InPool (input + i)) :
    m.Covers base input len ↔ len % 16 = 0 := by
  refine ⟨fun hcov => ?_, covers_of_whole⟩
  by_contra hlen
  obtain ⟨i, hi, hpool, -⟩ := hcov (len / 16 * 16) le_rfl (by omega)
  exact h i hi hpool

/-- **What a call copies back**: the blocks of the input, enciphered, and then what was there. -/
theorem memcpy_bytes (hup : c.Updates) (harea : P.area c.sharedMemBase len ≠ none)
    (hfit : P.Fits c.sharedMemBase len) (hout : output ≠ 0) (m : Machine) (input : Nat) :
    ∃ m₁ c', aesEncryptMemcpy P c output input len m = .ok (0, c') m₁ ∧ 2 * len < 2 ^ 32 ∧
      ∀ k, k < len → m₁.session.st.mem (output + k) =
        if k < len / 16 * 16 then
          (c.core.encipher P.aes fun i => m.session.st.mem (input + k / 16 * 16 + i)).at k
        else m.busRead (c.sharedMemBase + UInt32.ofNat (len + k)) := by
  obtain ⟨m₁, c', hrun, -, hlen, hfar, -, hnear⟩ := memcpy_eq hup harea hfit m output input
  rw [if_neg fun h => hout h.1] at hrun
  refine ⟨_, c', hrun, hlen, fun k hk => ?_⟩
  rw [withMem_mem, Mem.fill_of_inside _ _ hk]
  split
  · rename_i hwhole
    exact hnear k hwhole
  · rename_i hragged
    refine hfar _ ?_
    rw [toNat_offset _ (by omega)]
    omega

/-- What the bus reads where the input is. -/
theorem Machine.Sees.read {b : UInt32} {a : UInt32} {n : Nat} {f g : Nat → UInt8}
    (h : m.Sees input len b)
    (hin : ∀ i, i < len → (m.busFill a n f).session.st.mem (input + i) =
      (m.busFill a n g).session.st.mem (input + i)) :
    (m.busFill a n f).busRead b = (m.busFill a n g).busRead b := by
  obtain ⟨i, hi, hpool, rfl⟩ := h
  have hf := busRead_image (m := m.busFill a n f) (x := input + i) hpool
  have hg := busRead_image (m := m.busFill a n g) (x := input + i) hpool
  exact hf.trans ((hin i hi).trans hg.symm)

/-- **Nothing leaks** when there are only whole blocks. -/
theorem blind_of_covers (hup : c.Updates) (harea : P.area c.sharedMemBase len ≠ none)
    (hfit : P.Fits c.sharedMemBase len) (hout : output ≠ 0)
    (h : m.Covers c.sharedMemBase input len) : Blind P c output input len m := by
  intro n f g c₁ c₂ m₁ m₂ hin h₁ h₂ k hk
  obtain ⟨m₁', c₁', h₁', -, hbytes₁⟩ :=
    memcpy_bytes hup harea hfit hout (m.busFill c.sharedMemBase n f) input
  obtain ⟨m₂', c₂', h₂', -, hbytes₂⟩ :=
    memcpy_bytes hup harea hfit hout (m.busFill c.sharedMemBase n g) input
  obtain ⟨-, rfl⟩ := EStateM.Result.ok.inj (h₁.symm.trans h₁')
  obtain ⟨-, rfl⟩ := EStateM.Result.ok.inj (h₂.symm.trans h₂')
  rw [hbytes₁ k hk, hbytes₂ k hk]
  split
  · have hblock : (fun i : Fin 16 => (m.busFill c.sharedMemBase n f).session.st.mem
        (input + k / 16 * 16 + i)) = fun i : Fin 16 =>
        (m.busFill c.sharedMemBase n g).session.st.mem (input + k / 16 * 16 + i) := by
      funext i
      have hi := i.isLt
      rw [Nat.add_assoc]
      exact hin _ (by omega)
    rw [hblock]
  · rename_i hragged
    exact (h k (by omega) hk).read hin

/-- **Something leaks** when there is a partial block. -/
theorem covers_of_blind (hup : c.Updates) (harea : P.area c.sharedMemBase len ≠ none)
    (hfit : P.Fits c.sharedMemBase len) (hout : output ≠ 0) (h : Blind P c output input len m) :
    m.Covers c.sharedMemBase input len := by
  intro k h1 h2
  by_contra hsees
  -- two contents that differ in this byte only
  obtain ⟨m₁, c₁, hrun₁, hlen, hbytes₁⟩ :=
    memcpy_bytes hup harea hfit hout (m.busFill c.sharedMemBase (len + k + 1) fun _ => 0) input
  obtain ⟨m₂, c₂, hrun₂, -, hbytes₂⟩ := memcpy_bytes hup harea hfit hout
    (m.busFill c.sharedMemBase (len + k + 1) fun j => if j = len + k then 1 else 0) input
  have hdist := toNat_offset c.sharedMemBase (k := len + k) (by omega)
  have hsame := h _ _ _ _ _ _ _ (fun i hi => ?_) hrun₁ hrun₂ k h2
  · rw [hbytes₁ k h2, hbytes₂ k h2, if_neg (by omega), if_neg (by omega), busRead_busFill,
      busRead_busFill, hdist, if_pos (by omega), if_pos (by omega), if_pos rfl] at hsame
    exact absurd hsame (by decide)
  · by_cases hpool : m.InPool (input + i)
    · rw [busFill_mem _ _ _ hpool, busFill_mem _ _ _ hpool]
      dsimp only
      split
      · refine (if_neg fun heq => hsees ⟨i, hi, hpool, ?_⟩).symm
        rw [← heq, UInt32.ofNat_toNat, UInt32.add_comm c.sharedMemBase, UInt32.sub_add_cancel]
      · rfl
    · rw [(ByBus.fill m _ _ _).mem_eq _ hpool, (ByBus.fill m _ _ _).mem_eq _ hpool]

/-- **The output of the memcpy path is a function of the cipher and the input exactly when the core
writes all of it**, or what it leaves out is the input itself, for every cipher that has been made
and used in whatever way. -/
theorem memcpy_blind {r : NewReply} {key iv : List UInt8} {base : UInt32} {ivLength : Nat}
    {mode : Int} {c₀ : FpgaAes} (hnew : fpgaAesNew r key base iv ivLength mode = some c₀)
    (hused : Used P (fun _ _ => True) c₀ c) (harea : P.area base len ≠ none)
    (hfit : P.Fits base len) (hout : output ≠ 0) (m : Machine) (input : Nat) :
    Blind P c output input len m ↔ m.Covers base input len := by
  obtain ⟨hloc, hshared, -, hup⟩ := new_eq hnew
  have hfix := (hused.lastLocation_lt (by omega)).2
  obtain rfl : c.sharedMemBase = base := hfix.sharedMemBase_eq.trans hshared
  exact ⟨covers_of_blind (hfix.updates hup) harea hfit hout,
    blind_of_covers (hfix.updates hup) harea hfit hout⟩

/-- A block of 16 bytes leaves no room for anything else. -/
theorem memcpy_blind_zynq : Blind (Platform.mapped benchAes) benchCipher 0x3000 0x2000 16
    (Machine.on ⟨openedShort, []⟩) :=
  (memcpy_blind (P := Platform.mapped benchAes) benchCipher_new .refl
    (fun h => absurd ((mapped_area _).symm.trans h) (by simp)) (mapped_fits _) (by decide) _ _).2
    (covers_of_whole rfl)

/-- **Four bytes leak**: of 20 bytes the core writes 16. -/
theorem memcpy_leaks : ∃ m : Machine, ∀ aes,
    ¬Blind (Platform.mapped aes) benchCipher 0x3000 0x2000 20 m := by
  refine ⟨Machine.on ⟨openedShort, []⟩, fun aes h => ?_⟩
  have harea : (Platform.mapped aes).area baseAddressConst 20 =
      some ⟨3, 0x40000000, 0x40000000, 8192, 0, 4096⟩ := by
    show (getSharedMemoryArea ⟨4096, 3, some 0x40000000, true⟩ _ _).1 = _
    decide
  have hfit : (Platform.mapped aes).Fits baseAddressConst 20 := by
    intro mem h
    obtain rfl := Option.some.inj (harea.symm.trans h)
    decide
  have hcov := covers_of_blind (P := Platform.mapped aes) (c := benchCipher)
    ⟨rfl, rfl, rfl, rfl, rfl, rfl⟩ (fun h => absurd (harea.symm.trans h) (by simp)) hfit
    (by decide) h
  have hwhole := (covers_iff fun i hi hpool => ?_).1 hcov
  · exact absurd hwhole (by decide)
  · have hlow : 0x100000 ≤ 0x2000 + i := hpool.2.1
    omega

end Zedboard
