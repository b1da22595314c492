import Zedboard.Memmgr.Runs

/-!
# Freeing everything

When the clients give back all they hold, in any order, the heap is one free block again: nothing is
held, so all blocks are free, and no two free blocks are neighbours (`freeAll_oneBlock`).  Where
`base` begins right behind the pool it is one of the neighbours (`freeAll_oneBlock_behind`).
-/

set_option autoImplicit false

namespace Zedboard
namespace Memmgr

variable {e : Env} {S : Session} {bs : List Block}

/-- Free the pointers one after the other. -/
def freeAll (e : Env) (fuel : Nat) (s : State) (ps : List Nat) : Option State :=
  ps.foldlM (memmgrFree e fuel) s

/-- The free blocks of a heap that is one free block, or none. -/
def whole (s : State) : List Nat := if s.poolFreePos = 0 then [] else [s.pool]

/-- The ring is `base` and one block, which begins at `pool` and spans `pool_free_pos` bytes; or it
is `base` alone, when `pool_free_pos` is 0.  Before the first call of `memmgr_alloc` there is no
ring yet. -/
structure OneBlock (e : Env) (s : State) : Prop where
  ring : (s.freep = 0 ∧ s.poolFreePos = 0) ∨
    (s.freep ∈ e.base :: whole s ∧ IsRing (s.next e) e.base (whole s) ∧ s.size e e.base = 0)
  size : s.poolFreePos ≠ 0 → s.size e s.pool * e.hdr = s.poolFreePos

/-- **Freeing all that is held** comes back, in any order. -/
theorem Inv.freeAll {fuel : Nat} {ps : List (Nat × Nat)} : ∀ {S : Session} {bs : List Block},
    Inv e S bs → ps.Perm S.live → S.st.poolSize.toNat < fuel →
    ∃ s' bs', Memmgr.freeAll e fuel S.st (ps.map Prod.fst) = some s' ∧ Inv e ⟨s', []⟩ bs' ∧
      s'.poolFreePos = S.st.poolFreePos ∧ s'.pool = S.st.pool := by
  induction ps with
  | nil =>
    intro S bs I hperm hf
    obtain ⟨s, live⟩ := S
    obtain rfl : live = [] := hperm.nil_eq.symm
    exact ⟨s, bs, rfl, I, rfl, rfl⟩
  | cons x ps ih =>
    intro S bs I hperm hf
    obtain ⟨p, n⟩ := x
    have hp : (p, n) ∈ S.live := hperm.subset (by simp)
    obtain ⟨s₁, bs₁, hfree, I₁, K, hpos⟩ := I.free fuel hp hf
    have hrest : ps.Perm (S.live.erase (p, n)) := by
      have h := hperm.erase (p, n)
      rwa [List.erase_cons_head] at h
    obtain ⟨s', bs', hall, I', hpos', hpool'⟩ := ih I₁ hrest (by rwa [K.poolSize_eq])
    refine ⟨s', bs', ?_, I', hpos'.trans hpos, hpool'.trans K.pool_eq⟩
    rw [Memmgr.freeAll, List.map_cons, List.foldlM_cons, hfree]
    exact hall

/-- Free blocks that are not neighbours are one block at most. -/
theorem Coalesced.le_one (h : Coalesced bs) (hfree : ∀ b ∈ bs, b.isFree = true) :
    bs = [] ∨ ∃ b, bs = [b] := by
  rcases bs with _ | ⟨b, _ | ⟨c, bs⟩⟩
  · exact Or.inl rfl
  · exact Or.inr ⟨b, rfl⟩
  · have h1 := (List.isChain_cons_cons.1 h).1
    exact absurd ⟨hfree b (by simp), hfree c (by simp)⟩ h1

/-- **A heap of which nothing is held is one block.** -/
theorem Inv.oneBlock (I : Inv e S bs) (hlive : S.live = []) : OneBlock e S.st := by
  have hfree : ∀ b ∈ bs, b.isFree = true := by
    intro b hb
    have hnil : holdings e bs = [] := by
      have h := I.ledger
      rw [hlive] at h
      exact h.eq_nil
    by_contra hheld
    have h : b ∈ helds bs := mem_helds.2 ⟨hb, by simpa using hheld⟩
    rw [holdings, List.map_eq_nil_iff] at hnil
    rw [hnil] at h
    simp at h
  have W := I.wellFormed
  have htiles := W.tiles
  rcases W.coalesced.le_one hfree with rfl | ⟨b, rfl⟩
  · have hpos : S.st.poolFreePos = 0 := by
      rw [tiles_nil] at htiles
      omega
    have hwhole : whole S.st = [] := if_pos hpos
    refine ⟨?_, fun h => absurd hpos h⟩
    rw [hwhole]
    rcases W.ring with h0 | ⟨hmem, hsize, hring, -⟩
    · exact Or.inl ⟨h0, hpos⟩
    · exact Or.inr ⟨hmem, hring, hsize⟩
  · obtain ⟨haddr, hlen, hend⟩ := tiles_cons.1 htiles
    rw [tiles_nil] at hend
    have hbytes : b.bytes e = S.st.poolFreePos := by omega
    have hpos : S.st.poolFreePos ≠ 0 := by omega
    have hfrees : frees [b] = whole S.st := by
      rw [whole, if_neg hpos, frees_cons_free (hfree b (by simp)), haddr]
      rfl
    refine ⟨?_, fun _ => ?_⟩
    · rcases W.ring with h0 | ⟨hmem, hsize, hring, -⟩
      · obtain ⟨P, L⟩ := I.layout (Or.inl (by simp))
        exact absurd h0 (L.ring_lt P L.freep_mem).2.ne'
      · rw [hfrees] at hmem hring
        exact Or.inr ⟨hmem, hring, hsize⟩
    · rw [← haddr, W.sizes b (by simp), ← hbytes]
      rfl

/-- **Freeing everything leaves one block**, in every session that can be reached and in whatever
order it is freed. -/
theorem freeAll_oneBlock {s : State} {buffer fuel : Nat} {length baseAddress : UInt32}
    {ps : List (Nat × Nat)} (hs : s.session = 0) (hp : buffer = 0 ∨ Placed e buffer length)
    (h : Reachable e s buffer length baseAddress S) (hperm : ps.Perm S.live)
    (hf : length.toNat < fuel) :
    ∃ s', freeAll e fuel S.st (ps.map Prod.fst) = some s' ∧ OneBlock e s' ∧
      s'.poolFreePos = S.st.poolFreePos ∧ s'.pool = buffer := by
  obtain ⟨bs, I⟩ := h.inv hs hp
  obtain ⟨hpool, hsize, -⟩ := h.samePool hs hp
  obtain ⟨s', bs', hall, I', hpos, hpool'⟩ := I.freeAll hperm (by rwa [hsize])
  exact ⟨s', hall, I'.oneBlock rfl, hpos, hpool'.trans hpool⟩

theorem freeAll_oneBlock_zynq : ∃ S s',
    Reachable Env.zynq (State.loaded fun _ => 0) 0x100000 640 0x1f410000 S ∧
      freeAll Env.zynq 641 S.st [0x1000f0] = some s' ∧ OneBlock Env.zynq s' := by
  obtain ⟨S, hS, hlive⟩ := zynq_reachable
  have hperm : [(0x1000f0, 40)].Perm S.live := by rw [hlive]
  obtain ⟨s', hall, hone, -⟩ := freeAll_oneBlock rfl (Or.inr zynq_placed) hS hperm
    (show (640 : UInt32).toNat < 641 by decide)
  exact ⟨S, s', hS, hall, hone⟩

/-- **The ring is lost** where `base` lies directly behind the pool: the one block that is freed
there takes `base` off it. -/
theorem freeAll_oneBlock_behind : ∃ S s', BehindReachable S ∧ S.live = [(0x10012c, 16)] ∧
    freeAll behind 400 S.st [0x10012c] = some s' ∧ ¬OneBlock behind s' := by
  obtain ⟨s₁, s₂, s₃, s₄, hS, hfree, -, -, ⟨hpool, hpos, hfreep, hnext⟩, -⟩ := behind_run
  have hall : freeAll behind 400 s₁ [0x10012c] = some s₂ := by
    rw [freeAll, List.foldlM_cons, hfree]
    rfl
  refine ⟨_, s₂, hS, rfl, hall, fun O => ?_⟩
  rcases O.ring with ⟨h0, -⟩ | ⟨-, hring, -⟩
  · rw [hfreep] at h0
    exact absurd h0 (by decide)
  · have hwhole : whole s₂ = [0x100000] := by
      rw [whole, hpos, hpool]
      rfl
    rw [hwhole] at hring
    -- the block leads to itself, not back to `base`
    have hback : s₂.next behind 0x100000 = behind.base :=
      (linked_cons_cons.1 (linked_cons_cons.1 hring).2).1
    rw [hnext] at hback
    exact absurd hback (by decide)

end Memmgr
end Zedboard
