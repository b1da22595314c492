import Zedboard.Memmgr.Defs

/-!
# Header fields as independent variables

The allocator reads and writes its headers in raw memory.  This file makes that usable: `Rehead`
says that one header has been given a new successor and a new size, that every header apart from
it is as it was, and that no byte outside it has changed.  Every write of the allocator is an
instance, and later files know nothing else about the memory.
-/

set_option autoImplicit false

namespace Zedboard

/-! ## The environment -/

namespace Env

variable (e : Env)

/-- The fields fit into the header. -/
theorem fields_le_hdr : 2 * e.word + 12 ≤ e.hdr := by
  rw [word, hdr]
  cases e.abi <;> decide

/-- A header is not shorter than a block of the cipher. -/
theorem le_hdr : 16 ≤ e.hdr := by
  rw [hdr]
  cases e.abi <;> decide

theorem hdr_pos : 0 < e.hdr := Nat.lt_of_lt_of_le (by decide) e.le_hdr

theorem base_lt : e.base + e.hdr < e.range := e.base_fits

theorem range_pos : 0 < e.range := Nat.zero_lt_of_lt e.base_lt

variable {e}

theorem ulong_eq {n : Nat} (h : n < e.range) : e.ulong n = n := Nat.mod_eq_of_lt h

theorem ptrAdd_eq {p n : Nat} (h : p + n * e.hdr < e.range) : e.ptrAdd p n = p + n * e.hdr :=
  Nat.mod_eq_of_lt h

theorem ptrPred_add {p : Nat} (h : p < e.range) : e.ptrPred (p + e.hdr) = p := by
  rw [ptrPred, show p + e.hdr + e.range - e.hdr = p + e.range by omega, Nat.add_mod_right,
    Nat.mod_eq_of_lt h]

end Env

namespace Memmgr

variable {e : Env} {s s' s'' : State} {p q : Nat}

/-! ## One header changed -/

/-- The headers at `p` and `q` do not overlap. -/
def Sep (e : Env) (p q : Nat) : Prop := p + e.hdr ≤ q ∨ q + e.hdr ≤ p

theorem Sep.symm (h : Sep e p q) : Sep e q p := Or.symm h

theorem Sep.ne (h : Sep e p q) : p ≠ q := by
  have := e.hdr_pos
  rcases h with h | h <;> omega

/-- `s'` is `s` with the successor and the size in the header at `p` replaced. -/
structure Rehead (e : Env) (s s' : State) (p nx sz : Nat) : Prop where
  /-- The new successor. -/
  next_self : s'.next e p = nx
  /-- The new size. -/
  size_self : s'.size e p = sz
  /-- No byte outside the header has changed. -/
  frame : ∀ x, x < p ∨ p + e.hdr ≤ x → s'.mem x = s.mem x
  /-- No static variable has changed. -/
  statics : s' = { s with mem := s'.mem }

theorem next_congr (h : ∀ x, q ≤ x → x < q + e.hdr → s'.mem x = s.mem x) :
    s'.next e q = s.next e q := by
  have := e.fields_le_hdr
  exact Mem.readLE_congr fun x h1 h2 => h x h1 (by omega)

theorem size_congr (h : ∀ x, q ≤ x → x < q + e.hdr → s'.mem x = s.mem x) :
    s'.size e q = s.size e q := by
  have := e.fields_le_hdr
  exact Mem.readLE_congr fun x h1 h2 => h x (by omega) (by omega)

namespace Rehead

variable {nx sz nx' sz' : Nat}

theorem frame_sep (h : Rehead e s s' p nx sz) (hq : Sep e p q) :
    ∀ x, q ≤ x → x < q + e.hdr → s'.mem x = s.mem x := by
  intro x h1 h2
  refine h.frame x ?_
  rcases hq with hq | hq
  · exact Or.inr (by omega)
  · exact Or.inl (by omega)

theorem next_of_sep (h : Rehead e s s' p nx sz) (hq : Sep e p q) : s'.next e q = s.next e q :=
  next_congr (h.frame_sep hq)

theorem size_of_sep (h : Rehead e s s' p nx sz) (hq : Sep e p q) : s'.size e q = s.size e q :=
  size_congr (h.frame_sep hq)

/-- Two changes of the same header. -/
theorem trans (h : Rehead e s s' p nx sz) (h' : Rehead e s' s'' p nx' sz') :
    Rehead e s s'' p nx' sz' where
  next_self := h'.next_self
  size_self := h'.size_self
  frame x hx := (h'.frame x hx).trans (h.frame x hx)
  statics := by rw [h'.statics, h.statics]

end Rehead

/-! ## The writes -/

theorem rehead_of_write {k a v : Nat} (ha : p ≤ a) (hk : a + k ≤ p + e.hdr)
    (hs' : s' = { s with mem := s.mem.writeLE k a v }) :
    (∀ x, x < p ∨ p + e.hdr ≤ x → s'.mem x = s.mem x) ∧ s' = { s with mem := s'.mem } := by
  subst hs'
  exact ⟨fun x hx => Mem.writeLE_of_outside _ (by omega), rfl⟩

theorem rehead_setNext (s : State) {v : Nat} (hv : v < e.range) :
    Rehead e s (s.setNext e p v) p v (s.size e p) := by
  have := e.fields_le_hdr
  obtain ⟨hf, hs⟩ := rehead_of_write (e := e) (p := p) (s := s) (k := e.word) (a := p) (v := v)
    (le_refl p) (by omega) rfl
  exact ⟨Mem.readLE_writeLE_of_lt _ hv, Mem.readLE_writeLE_of_apart _ (Or.inl (le_refl _)), hf, hs⟩

theorem rehead_setSize (s : State) {v : Nat} (hv : v < e.range) :
    Rehead e s (s.setSize e p v) p (s.next e p) v := by
  have := e.fields_le_hdr
  obtain ⟨hf, hs⟩ := rehead_of_write (e := e) (p := p) (s := s) (k := e.word) (a := p + e.word)
    (v := v) (by omega) (by omega) rfl
  exact ⟨Mem.readLE_writeLE_of_apart _ (Or.inr (le_refl _)), Mem.readLE_writeLE_of_lt _ hv, hf, hs⟩

/-- A write behind the successor and the size. -/
theorem rehead_of_tail_write {k a v : Nat} (ha : p + 2 * e.word ≤ a) (hk : a + k ≤ p + e.hdr)
    (hs' : s' = { s with mem := s.mem.writeLE k a v }) :
    Rehead e s s' p (s.next e p) (s.size e p) := by
  obtain ⟨hf, hs⟩ := rehead_of_write (e := e) (p := p) (by omega) hk hs'
  refine ⟨?_, ?_, hf, hs⟩
  · subst hs'
    exact Mem.readLE_writeLE_of_apart _ (Or.inr (by omega))
  · subst hs'
    exact Mem.readLE_writeLE_of_apart _ (Or.inr (by omega))

theorem rehead_setNonce (s : State) (v : Nat) :
    Rehead e s (s.setNonce e p v) p (s.next e p) (s.size e p) := by
  have := e.fields_le_hdr
  exact rehead_of_tail_write (le_refl _) (by omega) rfl

theorem rehead_setNonce2 (s : State) (v : Nat) :
    Rehead e s (s.setNonce2 e p v) p (s.next e p) (s.size e p) := by
  have := e.fields_le_hdr
  exact rehead_of_tail_write (by omega) (by omega) rfl

theorem rehead_setOffset (s : State) (v : Nat) :
    Rehead e s (s.setOffset e p v) p (s.next e p) (s.size e p) := by
  have := e.fields_le_hdr
  exact rehead_of_tail_write (by omega) (by omega) rfl

/-- The successor and the size of the same header, written one after the other. -/
theorem rehead_setSize_setNext (s : State) {nx sz : Nat} (hn : nx < e.range) (hz : sz < e.range) :
    Rehead e s ((s.setSize e p sz).setNext e p nx) p nx sz := by
  have h1 := rehead_setSize (p := p) s hz
  have h2 := rehead_setNext (p := p) (s.setSize e p sz) hn
  rw [h1.size_self] at h2
  exact h1.trans h2

/-- The header of a new block: every field but the successor. -/
theorem rehead_stamp (s : State) {sz : Nat} (v w o : Nat) (hz : sz < e.range) :
    Rehead e s ((((s.setSize e p sz).setNonce e p v).setNonce2 e p w).setOffset e p o) p
      (s.next e p) sz := by
  have h1 := rehead_setSize (p := p) s hz
  have h2 := rehead_setNonce (e := e) (p := p) (s.setSize e p sz) v
  have h3 := rehead_setNonce2 (e := e) (p := p) ((s.setSize e p sz).setNonce e p v) w
  have h4 := rehead_setOffset (e := e) (p := p)
    (((s.setSize e p sz).setNonce e p v).setNonce2 e p w) o
  rw [h1.next_self, h1.size_self] at h2
  rw [h2.next_self, h2.size_self] at h3
  rw [h3.next_self, h3.size_self] at h4
  exact ((h1.trans h2).trans h3).trans h4

/-- The nonces and the size do not move the end of the heap. -/
@[simp] theorem stamp_poolFreePos (s : State) (sz v w : Nat) :
    (((s.setSize e p sz).setNonce e p v).setNonce2 e p w).poolFreePos = s.poolFreePos := rfl

end Memmgr
end Zedboard
