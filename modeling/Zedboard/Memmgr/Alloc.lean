import Zedboard.Memmgr.Free

/-!
# Allocating a block

On the list of blocks an allocation is at most two moves: `carve` hands out the tail of a free block
that is large enough, or all of it, and `grow` first appends a block from the unused part of the
pool and releases it.  `Layout.memmgrAlloc` shows that the source makes exactly these moves, from
every position of the roving pointer, and says when it returns null.

The search is one lap of the ring: either it meets a block that is large enough
(`Layout.exists_hit`), or it comes back to `freep` and the pool has to grow
(`Layout.allocLoop_missed`), after which a second lap succeeds.
-/

set_option autoImplicit false

namespace Zedboard
namespace Memmgr

/-! ## The effect on the list of blocks -/

/-- Hand out `nq` quanta of the free block `b` between `l` and `r` for a request of `n` bytes: the
whole block if it has that size, and the tail of it otherwise. -/
def carve (e : Env) (n nq : Nat) (l : List Block) (b : Block) (r : List Block) : List Block :=
  if b.size = nq then l ++ ⟨b.addr, nq, some n⟩ :: r
  else l ++ ⟨b.addr, b.size - nq, none⟩ :: ⟨b.addr + (b.size - nq) * e.hdr, nq, some n⟩ :: r

/-- The quanta `get_mem_from_pool` takes from the pool. -/
def growth (nq : Nat) : Nat := if nq < minPoolAllocQuantas then minPoolAllocQuantas else nq

theorem le_growth (nq : Nat) : nq ≤ growth nq := by
  rw [growth]
  split
  · omega
  · exact le_refl nq

theorem growth_pos (nq : Nat) : 0 < growth nq := by
  rw [growth, minPoolAllocQuantas]
  split <;> omega

/-- Append a block of at least `nq` quanta at `last` and release it. -/
def grow (last nq : Nat) (bs : List Block) : List Block :=
  release bs ⟨last, growth nq, some 0⟩ []

/-- A block fits behind the ones there are. -/
def Roomy (e : Env) (s : State) (nq : Nat) : Prop :=
  s.poolFreePos + growth nq * e.hdr ≤ s.poolSize.toNat

instance (e : Env) (s : State) (nq : Nat) : Decidable (Roomy e s nq) :=
  inferInstanceAs (Decidable (_ ≤ _))

/-- The test of `get_mem_from_pool`, which is made in words. -/
def Admits (e : Env) (s : State) (nq : Nat) : Prop :=
  e.ulong (s.poolFreePos + e.ulong (growth nq * e.hdr)) ≤ s.poolSize.toNat

/-- The test is made without overflow. -/
theorem total_eq {e : Env} {s : State} {nq : Nat}
    (hno : s.poolFreePos + growth nq * e.hdr < e.range) :
    e.ulong (growth nq * e.hdr) = growth nq * e.hdr ∧
    e.ulong (s.poolFreePos + growth nq * e.hdr) = s.poolFreePos + growth nq * e.hdr :=
  ⟨Env.ulong_eq (by omega), Env.ulong_eq hno⟩

/-- Then it is whether a block fits. -/
theorem admits_iff {e : Env} {s : State} {nq : Nat}
    (hno : s.poolFreePos + growth nq * e.hdr < e.range) : Admits e s nq ↔ Roomy e s nq := by
  obtain ⟨htotal, hsum⟩ := total_eq hno
  rw [Admits, htotal, hsum, Roomy]

/-- When the test fails nothing changes. -/
theorem getMemFromPool_refused {e : Env} {s : State} {nq : Nat} (fuel : Nat) (hpool : s.pool ≠ 0)
    (h : ¬Admits e s nq) : getMemFromPool e fuel s nq = some (0, s) := by
  rw [getMemFromPool, if_neg hpool]
  exact if_neg h

/-- The heap made ready for `nq` quanta: as it is, or grown because nothing in it is large
enough. -/
def Ready (e : Env) (s : State) (nq : Nat) (bs bs' : List Block) (pos : Nat) : Prop :=
  (bs' = bs ∧ pos = s.poolFreePos) ∨
  ((∀ c ∈ bs, c.isFree = true → c.size < nq) ∧ Roomy e s nq ∧
    bs' = grow (s.pool + s.poolFreePos) nq bs ∧ pos = s.poolFreePos + growth nq * e.hdr)

theorem helds_grow (last nq : Nat) (bs : List Block) : helds (grow last nq bs) = helds bs := by
  rw [grow, helds_release, helds_nil, List.append_nil]

theorem exists_grow (last nq : Nat) (bs : List Block) :
    ∃ c ∈ grow last nq bs, c.isFree = true ∧ growth nq ≤ c.size :=
  exists_release

/-- When the pool has grown for `nq` quanta some free block is large enough, alone or merged. -/
theorem exists_grow_enough (last nq : Nat) (bs : List Block) :
    ∃ c ∈ grow last nq bs, c.isFree = true ∧ nq ≤ c.size := by
  obtain ⟨c, hc, hfree, hle⟩ := exists_grow last nq bs
  exact ⟨c, hc, hfree, (le_growth nq).trans hle⟩

/-- Either some free block has at least `nq` quanta, or all are smaller. -/
theorem enough_or_small (nq : Nat) (bs : List Block) :
    (∃ c ∈ bs, c.isFree = true ∧ nq ≤ c.size) ∨ ∀ c ∈ bs, c.isFree = true → c.size < nq := by
  by_cases h : ∃ c ∈ bs, c.isFree = true ∧ nq ≤ c.size
  · exact Or.inl h
  · exact Or.inr fun c hc hfree => Nat.lt_of_not_le fun hle => h ⟨c, hc, hfree, hle⟩

/-- A held block may take the place of any block. -/
theorem Coalesced.hold {l r : List Block} {b b' : Block} (h : Coalesced (l ++ b :: r))
    (hb' : b'.isFree = false) : Coalesced (l ++ b' :: r) := by
  obtain ⟨hl, hr, -⟩ := List.isChain_append.1 h
  refine List.isChain_append.2 ⟨hl, ?_, ?_⟩
  · refine List.isChain_cons.2 ⟨fun c _ hc => ?_, (List.isChain_cons.1 hr).2⟩
    rw [hb'] at hc
    exact Bool.noConfusion hc.1
  · intro x _ y hy hxy
    obtain rfl : b' = y := by simpa using hy
    rw [hb'] at hxy
    exact Bool.noConfusion hxy.2

/-- A free block may shrink in front of a held one. -/
theorem Coalesced.shrink {l r : List Block} {b b₁ b₂ : Block} (h : Coalesced (l ++ b :: r))
    (hb : b.isFree = true) (hb₂ : b₂.isFree = false) : Coalesced (l ++ b₁ :: b₂ :: r) := by
  obtain ⟨hl, hr, hlr⟩ := List.isChain_append.1 h
  refine List.isChain_append.2 ⟨hl, ?_, ?_⟩
  · have h1 : Coalesced ([] ++ b₂ :: r) := Coalesced.hold (l := []) (b := b) hr hb₂
    refine List.isChain_cons.2 ⟨fun c hc hcc => ?_, h1⟩
    obtain rfl : b₂ = c := by simpa using hc
    rw [hb₂] at hcc
    exact Bool.noConfusion hcc.2
  · intro x hx y hy hxy
    obtain rfl : b₁ = y := by simpa using hy
    exact hlr x hx b (by simp) ⟨hxy.1, hb⟩

section

variable {e : Env} {n nq a last : Nat} {l r : List Block} {b : Block}

theorem carve_tiles (h : Tiles Block.addr (Block.bytes e) a (l ++ b :: r) last) (hnq : 0 < nq)
    (hle : nq ≤ b.size) : Tiles Block.addr (Block.bytes e) a (carve e n nq l b r) last := by
  rw [tiles_append_cons] at h
  obtain ⟨h1, h2, h3⟩ := h
  have hpos := e.hdr_pos
  rw [carve]
  split
  · rename_i heq
    subst heq
    exact tiles_append_cons.2 ⟨h1, h2, h3⟩
  · refine tiles_append_cons.2 ⟨h1, ?_, ?_⟩
    · exact Nat.mul_pos (show 0 < b.size - nq by omega) hpos
    · have hsum : (b.size - nq) * e.hdr + nq * e.hdr = b.size * e.hdr := by
        rw [← Nat.add_mul, Nat.sub_add_cancel hle]
      refine ⟨rfl, Nat.mul_pos hnq hpos, ?_⟩
      simp only [Block.bytes] at h3 ⊢
      rwa [Nat.add_assoc, hsum]

/-- One more block is held. -/
theorem helds_carve : helds (carve e n nq l b r) =
    helds l ++ ⟨b.addr + (b.size - nq) * e.hdr, nq, some n⟩ :: helds r := by
  rw [carve]
  split
  · rename_i heq
    rw [helds_append, helds_cons_held rfl, heq, Nat.sub_self, Nat.zero_mul, Nat.add_zero]
  · rw [helds_append, helds_cons_free rfl, helds_cons_held rfl]

end

/-! ## Taking a block out of the free list -/

namespace Layout

variable {e : Env} {s s' : State} {last n nq prevp : Nat} {bs l r : List Block} {b c : Block}

/-- What precedes a block in the ring is its predecessor. -/
theorem eq_predOf (P : Sited e s.pool s.poolSize) (L : Layout e s last (l ++ b :: r))
    (hb : b.isFree = true) (hp : prevp ∈ e.base :: frees (l ++ b :: r))
    (hnext : s.next e prevp = b.addr) : prevp = predOf e l := by
  have hring := L.ring
  have hnd := L.ring_nodup P
  have hmem : predOf e l ∈ e.base :: frees (l ++ b :: r) := by
    have h1 := predOf_mem e l
    rw [frees_append]
    simp only [List.mem_cons, List.mem_append] at h1 ⊢
    exact h1.imp_right Or.inl
  refine hring.next_inj hnd hp hmem ?_
  have h1 := hring
  rw [frees_append] at h1
  rw [hnext, next_predOf h1, succOf_cons_free e hb]

/-- A header strictly inside a block is apart from all the others. -/
theorem sep_inside (P : Sited e s.pool s.poolSize) (L : Layout e s last bs) (hb : b ∈ bs)
    {t p : Nat} (h1 : b.addr + e.hdr ≤ t) (h2 : t + e.hdr ≤ b.addr + b.bytes e)
    (hp : p ∈ e.base :: bs.map Block.addr) : Sep e t p := by
  rcases L.head_apart P hb hp with h | h
  · exact Or.inl (by omega)
  · exact Or.inr (by omega)

/-- The ring without a block: its predecessor gets its successor. -/
theorem unlink_ring (P : Sited e s.pool s.poolSize) (L : Layout e s last (l ++ b :: r))
    (hb : b.isFree = true) {k : Nat} (h : Rehead e s s' (predOf e l) (s.next e b.addr) k) :
    IsRing (s'.next e) e.base (frees l ++ frees r) := by
  have hring := L.ring
  have hnd := L.ring_nodup P
  rw [frees_append, frees_cons_free hb] at hring hnd
  obtain ⟨d, hd⟩ := cons_frees_eq e l
  obtain ⟨t, ht⟩ := frees_concat_eq e r
  have hpl := predOf_mem e l
  have hbnext : s.next e b.addr = succOf e r := by
    refine (next_predOf (l := l ++ [b]) ?_) |> (predOf_concat_free e hb ▸ ·)
    simpa [frees_cons_free hb] using hring
  have hndl : (d ++ [predOf e l]).Nodup := by
    rw [← hd]
    exact hnd.sublist (List.sublist_append_left (e.base :: frees l) (b.addr :: frees r))
  have hmem : ∀ q, q ∈ e.base :: (frees l ++ b.addr :: frees r) →
      q ∈ e.base :: (l ++ b :: r).map Block.addr := fun q hq => by
    refine mem_heads_of_ring ?_
    rwa [frees_append, frees_cons_free hb]
  have hp : predOf e l ∈ e.base :: (frees l ++ b.addr :: frees r) :=
    List.mem_append_left (b.addr :: frees r) hpl
  have hring' : IsRing (s.next e) e.base (frees l ++ [b.addr] ++ frees r) := by simpa using hring
  have hsplice := hring'.splice (s'.next e) [] hd ht (fun q hq => ?_)
    (by simpa [hbnext] using h.next_self)
  · simpa using hsplice
  · -- the free blocks other than the predecessor keep their successors
    have hq' : q ∈ e.base :: (frees l ++ b.addr :: frees r) ∧ q ≠ predOf e l := by
      rcases hq with hq | hq
      · have hql : q ∈ e.base :: frees l := by rw [hd]; exact List.mem_append_left _ hq
        refine ⟨List.mem_append_left (b.addr :: frees r) hql, ?_⟩
        rintro rfl
        exact (List.nodup_append.1 hndl).2.2 _ hq _ (by simp) rfl
      · refine ⟨by simp [hq], ?_⟩
        rintro rfl
        have hall : ((e.base :: frees l) ++ (b.addr :: frees r)).Nodup := hnd
        exact (List.nodup_append.1 hall).2.2 _ hpl _ (List.mem_cons_of_mem _ hq) rfl
    exact (L.heads_kept P (hmem _ hp) h (hmem q hq'.1) hq'.2).1

/-- Taking all of a block: its predecessor gets its successor. -/
theorem take_exact (P : Sited e s.pool s.poolSize) (L : Layout e s last (l ++ b :: r))
    (hb : b.isFree = true) (heq : b.size = nq) (hp : prevp ∈ e.base :: frees (l ++ b :: r))
    (hnext : s.next e prevp = b.addr) :
    Layout e { s.setNext e prevp (s.next e b.addr) with freep := prevp } last
      (l ++ ⟨b.addr, nq, some n⟩ :: r) ∧
    Kept e (l ++ b :: r) s (s.setNext e prevp (s.next e b.addr)) := by
  obtain rfl := L.eq_predOf P hb hp hnext
  have hlt : s.next e b.addr < e.range := Mem.readLE_lt _ _ _
  have h := rehead_setNext (p := predOf e l) s hlt
  have hheads := mem_heads_of_ring hp
  have hsize : ∀ q ∈ e.base :: (l ++ b :: r).map Block.addr,
      (s.setNext e (predOf e l) (s.next e b.addr)).size e q = s.size e q := by
    intro q hq
    by_cases hqp : q = predOf e l
    · rw [hqp, h.size_self]
    · exact (L.heads_kept P hheads h hq hqp).2
  refine ⟨⟨?_, L.inside, ?_, ?_, ?_, ?_, L.coalesced.hold rfl⟩, ?_, ?_, h.statics⟩
  · have htiles := L.tiles
    rw [tiles_append_cons] at htiles ⊢
    subst heq
    exact htiles
  · intro x hx
    obtain ⟨y, hy, hya, hys⟩ : ∃ y ∈ l ++ b :: r, y.addr = x.addr ∧ y.size = x.size := by
      rcases List.mem_append.1 hx with hx | hx
      · exact ⟨x, by simp [hx], rfl, rfl⟩
      · rcases List.mem_cons.1 hx with rfl | hx
        · exact ⟨b, by simp, rfl, heq⟩
        · exact ⟨x, by simp [hx], rfl, rfl⟩
    rw [← hya, ← hys, ← L.sizes y hy]
    exact hsize _ (List.mem_cons_of_mem _ (List.mem_map_of_mem hy))
  · exact (hsize _ (by simp)).trans L.base_size
  · show IsRing ((s.setNext e (predOf e l) (s.next e b.addr)).next e) e.base _
    rw [frees_append, frees_cons_held rfl]
    exact L.unlink_ring P hb h
  · show predOf e l ∈ e.base :: frees _
    have hpl := predOf_mem e l
    rw [frees_append, frees_cons_held rfl]
    simp only [List.mem_cons, List.mem_append] at hpl ⊢
    exact hpl.imp_right Or.inl
  · exact fun c hc _ x h1 h2 => h.frame x (L.payload_outside P hc hheads h1 h2)
  · exact fun x h1 h2 => h.frame x (L.foreign_outside hheads h1 h2)

/-- What the two stores do that cut the tail off a block: it shrinks, the tail gets its size, the
other headers are as they were, and so is the memory outside the header and the block. -/
theorem tail_headers (P : Sited e s.pool s.poolSize) (L : Layout e s last (l ++ b :: r))
    (hnq : 0 < nq) (hlt : nq < b.size) {s' : State}
    (hs' : s' = (s.setSize e b.addr (b.size - nq)).setSize e
      (b.addr + (b.size - nq) * e.hdr) nq) :
    (s'.next e b.addr = s.next e b.addr ∧ s'.size e b.addr = b.size - nq) ∧
      s'.size e (b.addr + (b.size - nq) * e.hdr) = nq ∧
      (∀ q ∈ e.base :: (l ++ b :: r).map Block.addr, q ≠ b.addr →
        s'.next e q = s.next e q ∧ s'.size e q = s.size e q) ∧
      (∀ x, (x < b.addr ∨ b.addr + e.hdr ≤ x) → (x < b.addr ∨ b.addr + b.bytes e ≤ x) →
        s'.mem x = s.mem x) ∧
      s' = { s with mem := s'.mem } := by
  have hpos := e.hdr_pos
  have hsize := L.size_lt P (b := b) (by simp)
  have hbytes : (b.size - nq) * e.hdr + nq * e.hdr = b.bytes e := by
    rw [Block.bytes, ← Nat.add_mul, Nat.sub_add_cancel hlt.le]
  have hfirst : e.hdr ≤ (b.size - nq) * e.hdr := Nat.le_mul_of_pos_left _ (by omega)
  have hsecond : e.hdr ≤ nq * e.hdr := Nat.le_mul_of_pos_left _ hnq
  have h₁ := rehead_setSize (p := b.addr) s (show b.size - nq < e.range by omega)
  have h₂ := rehead_setSize (p := b.addr + (b.size - nq) * e.hdr)
    (s.setSize e b.addr (b.size - nq)) (show nq < e.range by omega)
  rw [← hs'] at h₂
  -- the new header lies inside the block
  have htail : ∀ q ∈ e.base :: (l ++ b :: r).map Block.addr,
      Sep e (b.addr + (b.size - nq) * e.hdr) q :=
    fun q hq => L.sep_inside (b := b) P (by simp) (by omega) (by omega) hq
  have hhead : b.addr ∈ e.base :: (l ++ b :: r).map Block.addr := by simp
  refine ⟨⟨?_, ?_⟩, h₂.size_self, fun q hq hqb => ?_, fun x h3 h4 => ?_, ?_⟩
  · rw [h₂.next_of_sep (htail _ hhead), h₁.next_self]
  · rw [h₂.size_of_sep (htail _ hhead), h₁.size_self]
  · obtain ⟨hnext, hsz⟩ := L.heads_kept P hhead h₁ hq hqb
    exact ⟨(h₂.next_of_sep (htail q hq)).trans hnext, (h₂.size_of_sep (htail q hq)).trans hsz⟩
  · refine (h₂.frame x ?_).trans (h₁.frame x h3)
    rcases h4 with h4 | h4
    · exact Or.inl (by omega)
    · exact Or.inr (by omega)
  · rw [h₂.statics, h₁.statics]

/-- Taking the tail of a block: the block shrinks, and the tail gets a header of its own. -/
theorem take_tail (P : Sited e s.pool s.poolSize) (L : Layout e s last (l ++ b :: r))
    (hb : b.isFree = true) (hnq : 0 < nq) (hlt : nq < b.size)
    (hp : prevp ∈ e.base :: frees (l ++ b :: r)) {s' : State}
    (hs' : s' = (s.setSize e b.addr (b.size - nq)).setSize e
      (b.addr + (b.size - nq) * e.hdr) nq) :
    Layout e { s' with freep := prevp } last
      (l ++ ⟨b.addr, b.size - nq, none⟩ ::
        ⟨b.addr + (b.size - nq) * e.hdr, nq, some n⟩ :: r) ∧
    Kept e (l ++ b :: r) s s' := by
  obtain ⟨⟨hnextb, hsizeb⟩, htail, hkept, hframe, hstat⟩ := L.tail_headers P hnq hlt hs'
  have hhead : b.addr ∈ e.base :: (l ++ b :: r).map Block.addr := by simp
  have hpool : s'.pool = s.pool ∧ s'.poolSize = s.poolSize := by
    rw [hstat]
    exact ⟨rfl, rfl⟩
  have hfrees : frees (l ++ (⟨b.addr, b.size - nq, none⟩ : Block) ::
      ⟨b.addr + (b.size - nq) * e.hdr, nq, some n⟩ :: r) = frees (l ++ b :: r) := by
    rw [frees_append, frees_append, frees_cons_free rfl, frees_cons_held rfl, frees_cons_free hb]
  refine ⟨⟨?_, ?_, ?_, ?_, ?_, ?_, L.coalesced.shrink hb rfl⟩, ?_, ?_, ?_⟩
  · have htiles := carve_tiles (n := n) L.tiles hnq hlt.le
    rw [carve, if_neg (by omega)] at htiles
    show Tiles _ _ s'.pool _ _
    rw [hpool.1]
    exact htiles
  · show last ≤ s'.pool + s'.poolSize.toNat
    rw [hpool.1, hpool.2]
    exact L.inside
  · intro x hx
    show s'.size e x.addr = x.size
    have hother : ∀ y ∈ l ++ b :: r, y.addr ≠ b.addr → s'.size e y.addr = y.size :=
      fun y hy hne => by
        rw [(hkept _ (List.mem_cons_of_mem _ (List.mem_map_of_mem hy)) hne).2, L.sizes y hy]
    rcases List.mem_append.1 hx with hx | hx
    · exact hother x (by simp [hx]) (L.lt_of_mem_left hx).ne
    · rcases List.mem_cons.1 hx with rfl | hx
      · exact hsizeb
      · rcases List.mem_cons.1 hx with rfl | hx
        · exact htail
        · exact hother x (by simp [hx]) (L.lt_of_mem_right hx).ne'
  · show s'.size e e.base = 0
    rw [(hkept _ (by simp) (L.sep_base P (b := b) (by simp)).ne).2, L.base_size]
  · show IsRing (s'.next e) e.base _
    rw [hfrees]
    refine L.ring.congr fun q hq => ?_
    by_cases hqb : q = b.addr
    · rw [hqb, hnextb]
    · exact (hkept q (mem_heads_of_ring hq) hqb).1
  · show prevp ∈ e.base :: frees _
    rw [hfrees]
    exact hp
  · intro c hc hheld x h1 h2
    have hcb : b ≠ c := by
      rintro rfl
      rw [hb] at hheld
      exact Bool.noConfusion hheld
    have hapart := L.apart (b := b) (by simp) hc hcb
    exact hframe x (L.payload_outside P hc hhead h1 h2) (by omega)
  · intro x h1 h2
    have hbd := L.bounds (b := b) (by simp)
    have hinside := L.inside
    exact hframe x (L.foreign_outside hhead h1 h2) (by omega)
  · rw [hstat]

/-- **The block is carved**: what `memmgr_alloc` does with a block that is large enough. -/
theorem take (P : Sited e s.pool s.poolSize) (L : Layout e s last (l ++ b :: r))
    (hb : b.isFree = true) (hnq : 0 < nq) (hle : nq ≤ b.size)
    (hp : prevp ∈ e.base :: frees (l ++ b :: r)) (hnext : s.next e prevp = b.addr) :
    ∃ s', Memmgr.take e n nq s prevp b.addr =
        (b.addr + (b.size - nq) * e.hdr + e.hdr, s') ∧
      Layout e s' last (carve e n nq l b r) ∧ Kept e (l ++ b :: r) s s' ∧
      s'.poolFreePos = s.poolFreePos ∧
      s'.largestAllocation =
        if s.largestAllocation.toNat < n then UInt32.ofNat n else s.largestAllocation := by
  have hbs : s.size e b.addr = b.size := L.sizes b (by simp)
  have hbd := L.bounds (b := b) (by simp)
  have hblt := L.addr_lt P (b := b) (by simp)
  have hpos := e.hdr_pos
  have hbytes : (b.size - nq) * e.hdr + nq * e.hdr = b.bytes e := by
    rw [Block.bytes, ← Nat.add_mul, Nat.sub_add_cancel hle]
  have hsecond : e.hdr ≤ nq * e.hdr := Nat.le_mul_of_pos_left _ hnq
  rw [Memmgr.take]
  by_cases heq : b.size = nq
  · obtain ⟨hL, hK⟩ := L.take_exact (n := n) P hb heq hp hnext
    rw [if_pos (hbs.trans heq), carve, if_pos heq, Env.ptrAdd_eq (by simp; omega), heq]
    simp only [Nat.sub_self, Nat.zero_mul, Nat.add_zero, Nat.one_mul]
    split
    · rename_i hlarge
      refine ⟨_, rfl, ⟨hL.tiles, hL.inside, hL.sizes, hL.base_size, hL.ring, hL.freep_mem,
        hL.coalesced⟩, ⟨hK.payload, hK.foreign, rfl⟩, rfl, ?_⟩
      exact (if_pos hlarge).symm
    · rename_i hlarge
      exact ⟨_, rfl, hL, ⟨hK.payload, hK.foreign, rfl⟩, rfl, (if_neg hlarge).symm⟩
  · have hlt : nq < b.size := by omega
    obtain ⟨hL, hK⟩ := L.take_tail (n := n) P hb hnq hlt hp rfl
    have hsize := L.size_lt P (b := b) (by simp)
    have h₁ := rehead_setSize (p := b.addr) s (show b.size - nq < e.range by omega)
    have htail : e.ptrAdd b.addr (b.size - nq) = b.addr + (b.size - nq) * e.hdr :=
      Env.ptrAdd_eq (by omega)
    have hpay : e.ptrAdd (b.addr + (b.size - nq) * e.hdr) 1 =
        b.addr + (b.size - nq) * e.hdr + e.hdr := by
      rw [Env.ptrAdd_eq (by omega), Nat.one_mul]
    rw [if_neg (by rw [hbs]; exact heq), carve, if_neg heq]
    simp only [hbs, h₁.size_self, htail, hpay]
    split
    · rename_i hlarge
      refine ⟨_, rfl, ⟨hL.tiles, hL.inside, hL.sizes, hL.base_size, hL.ring, hL.freep_mem,
        hL.coalesced⟩, ⟨hK.payload, hK.foreign, rfl⟩, rfl, ?_⟩
      exact (if_pos hlarge).symm
    · rename_i hlarge
      exact ⟨_, rfl, hL, ⟨hK.payload, hK.foreign, rfl⟩, rfl, (if_neg hlarge).symm⟩

/-! ## Growing -/

/-- The new header at `last`: the blocks now include a held one there. -/
theorem append (P : Sited e s.pool s.poolSize) (L : Layout e s last bs) {k v w : Nat}
    (hk : 0 < k) (hroom : last + k * e.hdr ≤ s.pool + s.poolSize.toNat) {s' : State}
    (h : Rehead e s s' last v k) :
    Layout e s' (last + k * e.hdr) (bs ++ [⟨last, k, some w⟩]) := by
  have hpos := e.hdr_pos
  have hkh : e.hdr ≤ k * e.hdr := Nat.le_mul_of_pos_left _ hk
  have hpool : s'.pool = s.pool ∧ s'.poolSize = s.poolSize ∧ s'.freep = s.freep := by
    rw [h.statics]
    exact ⟨rfl, rfl, rfl⟩
  have hle := L.tiles.le
  have hsep : ∀ q ∈ e.base :: bs.map Block.addr, Sep e last q := by
    intro q hq
    rcases List.mem_cons.1 hq with rfl | hq
    · rcases P.beside with h1 | h1
      · exact Or.inr (by omega)
      · exact Or.inl (by omega)
    · obtain ⟨b, hb, rfl⟩ := List.mem_map.1 hq
      have := L.bounds hb
      exact Or.inr (by omega)
  have hfrees : frees (bs ++ [⟨last, k, some w⟩]) = frees bs := by
    rw [frees_append, frees_cons_held rfl, frees_nil, List.append_nil]
  refine ⟨?_, ?_, ?_, ?_, ?_, ?_, ?_⟩
  · rw [hpool.1, tiles_append_cons]
    exact ⟨L.tiles, Nat.mul_pos hk hpos, rfl⟩
  · rw [hpool.1, hpool.2.1]
    exact hroom
  · intro b hb
    rcases List.mem_append.1 hb with hb | hb
    · rw [h.size_of_sep (hsep _ (List.mem_cons_of_mem _ (List.mem_map_of_mem hb))), L.sizes b hb]
    · obtain rfl := List.mem_singleton.1 hb
      exact h.size_self
  · rw [h.size_of_sep (hsep _ (by simp)), L.base_size]
  · rw [hfrees]
    exact L.ring.congr fun q hq => h.next_of_sep (hsep q (mem_heads_of_ring hq))
  · rw [hfrees, hpool.2.2]
    exact L.freep_mem
  · refine List.isChain_append.2 ⟨L.coalesced, List.IsChain.singleton _, ?_⟩
    intro x _ y hy hxy
    obtain rfl : _ = y := by simpa using hy
    exact Bool.noConfusion hxy.2

/-- **`get_mem_from_pool` grows the heap** when there is room. -/
theorem getMemFromPool (fuel : Nat) (P : Sited e s.pool s.poolSize)
    (L : Layout e s (s.pool + s.poolFreePos) bs)
    (hno : s.poolFreePos + growth nq * e.hdr < e.range) (hroom : Roomy e s nq)
    (hf : (frees bs).length < fuel) :
    ∃ s', Memmgr.getMemFromPool e fuel s nq = some (predOf e bs, s') ∧
      Layout e s' (s'.pool + s'.poolFreePos) (grow (s.pool + s.poolFreePos) nq bs) ∧
      Kept e bs s s' ∧ s'.freep = predOf e bs ∧
      s'.poolFreePos = s.poolFreePos + growth nq * e.hdr ∧
      s'.largestAllocation = s.largestAllocation := by
  obtain ⟨htotal, hsum⟩ := total_eq hno
  rw [Roomy] at hroom
  have hpos := e.hdr_pos
  have hpool := P.pool_pos
  have hfits := P.fits
  have hgpos := growth_pos nq
  have hg : growth nq ≤ growth nq * e.hdr := Nat.le_mul_of_pos_right _ hpos
  have hgh : e.hdr ≤ growth nq * e.hdr := Nat.le_mul_of_pos_left _ hgpos
  have hlast : (s.pool + s.poolFreePos) % e.range = s.pool + s.poolFreePos :=
    Nat.mod_eq_of_lt (by omega)
  have hptr : e.ptrAdd (s.pool + s.poolFreePos) 1 = s.pool + s.poolFreePos + e.hdr := by
    rw [Env.ptrAdd_eq (by omega), Nat.one_mul]
  have h₁ := rehead_stamp (e := e) (p := s.pool + s.poolFreePos) s nonce nonce2
    (s.poolFreePos + e.hdr) (show growth nq < e.range by omega)
  obtain ⟨s₁, hs₁⟩ : ∃ s₁, (((s.setSize e (s.pool + s.poolFreePos) (growth nq)).setNonce e
      (s.pool + s.poolFreePos) nonce).setNonce2 e (s.pool + s.poolFreePos) nonce2).setOffset e
      (s.pool + s.poolFreePos) (s.poolFreePos + e.hdr) = s₁ := ⟨_, rfl⟩
  rw [hs₁] at h₁
  have L₁ := L.append P (w := 0) hgpos (by omega) h₁
  have hpool₁ : s₁.pool = s.pool ∧ s₁.poolSize = s.poolSize ∧ s₁.poolFreePos = s.poolFreePos ∧
      s₁.largestAllocation = s.largestAllocation := by
    rw [h₁.statics]
    exact ⟨rfl, rfl, rfl, rfl⟩
  obtain ⟨s₂, hs₂, L₂, K₂, hfreep, hposn, hlarge⟩ := L₁.memmgrFree
    (by rw [hpool₁.1, hpool₁.2.1]; exact P) rfl (by simpa using hf)
  have hkept : Kept e bs s s₁ := by
    refine ⟨fun c hc _ x h1 h2 => h₁.frame x (Or.inl ?_), fun x h1 h2 => h₁.frame x ?_, ?_⟩
    · have := (L.bounds hc).2.2
      omega
    · omega
    · rw [h₁.statics]
  have hkept₂ := hkept.trans K₂ fun c hc _ => List.mem_append_left _ hc
  refine ⟨{ s₂ with poolFreePos := e.ulong (s.poolFreePos + growth nq * e.hdr) }, ?_, ?_,
    ⟨hkept₂.payload, hkept₂.foreign, ?_⟩, hfreep, hsum, ?_⟩
  · rw [Memmgr.getMemFromPool, if_neg (by omega)]
    have hgrowth : (if nq < minPoolAllocQuantas then minPoolAllocQuantas else nq) = growth nq := rfl
    dsimp only at hs₂
    simp only [hgrowth, htotal, hsum, hlast, hptr, if_pos hroom, stamp_poolFreePos, hs₁, hs₂,
      hfreep, hposn, hpool₁.2.2.1]
  · have h2 : s₂.pool = s.pool := hkept₂.pool_eq
    have L₃ : Layout e s₂ (s₂.pool + (s.poolFreePos + growth nq * e.hdr))
        (grow (s.pool + s.poolFreePos) nq bs) := by
      rw [h2, ← Nat.add_assoc]
      exact L₂
    rw [hsum]
    exact ⟨L₃.tiles, L₃.inside, L₃.sizes, L₃.base_size, L₃.ring, L₃.freep_mem, L₃.coalesced⟩
  · rw [hkept₂.statics]
  · exact hlarge.trans hpool₁.2.2.2

end Layout

/-! ## The search -/

/-- From `freep` on, the first free block of at least `nq` quanta is `b`, and the search meets it
behind `prevp`. -/
structure Hit (e : Env) (s : State) (nq : Nat) (l : List Block) (b : Block) (r : List Block)
    (prevp : Nat) : Prop where
  free : b.isFree = true
  enough : nq ≤ b.size
  prev_mem : prevp ∈ e.base :: frees (l ++ b :: r)
  next : s.next e prevp = b.addr
  first : seek (s.next e) (fun p => decide (nq ≤ s.size e p)) ((frees (l ++ b :: r)).length + 1)
    (s.next e s.freep) = some b.addr

/-- The ways in which the search ends for the list of blocks `bs`: a block of it is taken; or none
of its free blocks is large enough, the pool grows, and a block of what there is then is taken; or
null is returned. -/
inductive Search (e : Env) (n nq : Nat) (s : State) (bs : List Block) :
    Option (Nat × State) → Prop
  | hit {l : List Block} {b : Block} {r : List Block} {prevp : Nat} (hbs : bs = l ++ b :: r)
      (H : Hit e s nq l b r prevp) : Search e n nq s bs (some (take e n nq s prevp b.addr))
  | grown {scanFuel : Nat} {s₁ : State} {l : List Block} {b : Block} {r : List Block} {prevp : Nat}
      (small : ∀ c ∈ bs, c.isFree = true → c.size < nq) (room : Roomy e s nq)
      (get : getMemFromPool e scanFuel s nq = some (predOf e bs, s₁))
      (hbs : grow (s.pool + s.poolFreePos) nq bs = l ++ b :: r)
      (layout : Layout e s₁ (s₁.pool + s₁.poolFreePos) (l ++ b :: r)) (kept : Kept e bs s s₁)
      (pos : s₁.poolFreePos = s.poolFreePos + growth nq * e.hdr)
      (largest : s₁.largestAllocation = s.largestAllocation) (H : Hit e s₁ nq l b r prevp) :
      Search e n nq s bs (some (take e n nq s₁ prevp b.addr))
  | refused (small : ∀ c ∈ bs, c.isFree = true → c.size < nq) (full : ¬Roomy e s nq) :
      Search e n nq s bs (some (0, s))

section

variable {e : Env} {s : State}

/-- The loop of `memmgr_alloc` passes over the blocks that are too small. -/
theorem allocLoop_skip (scanFuel n nq : Nat) : ∀ {u : List Nat} (fuel : Nat) {prevp w : Nat},
    Linked (s.next e) (prevp :: u) → (prevp :: u).getLast? = some w →
    (∀ x ∈ u, s.size e x < nq ∧ x ≠ s.freep) →
    allocLoop e scanFuel n nq (fuel + u.length) s prevp (s.next e prevp) =
      allocLoop e scanFuel n nq fuel s w (s.next e w)
  | [], fuel, prevp, w, _, hw, _ => by
    obtain rfl : prevp = w := by simpa using hw
    rfl
  | x :: u, fuel, prevp, w, h, hw, hu => by
    obtain ⟨hx, h'⟩ := linked_cons_cons.1 h
    obtain ⟨hsmall, hne⟩ := hu x (by simp)
    have ih := allocLoop_skip scanFuel n nq fuel h' (by simpa using hw)
      fun y hy => hu y (List.mem_cons_of_mem _ hy)
    rw [hx, List.length_cons, ← Nat.add_assoc, allocLoop, if_neg (by omega), if_neg hne, ih]

end

namespace Layout

variable {e : Env} {s s' : State} {last n nq scanFuel fuel : Nat} {bs l r : List Block}
  {b c : Block}

/-- One lap: `l` are the elements of the ring after `freep`, in the order in which they are met. -/
theorem exists_lap (P : Sited e s.pool s.poolSize) (L : Layout e s last bs) :
    ∃ l, Linked (s.next e) (s.freep :: (l ++ [s.freep])) ∧ s.freep ∉ l ∧
      l.length = (frees bs).length ∧ ∀ x, x ∈ l ++ [s.freep] ↔ x ∈ e.base :: frees bs := by
  obtain ⟨l, h, hperm⟩ := L.ring.exists_rotation L.freep_mem
  refine ⟨l, h, (List.nodup_cons.1 (hperm.nodup_iff.2 (L.ring_nodup P))).1, ?_, fun x => ?_⟩
  · simpa using hperm.length_eq
  · rw [← hperm.mem_iff]
    simp [or_comm]

/-- **If some free block is large enough the search ends at the first one that it meets**, within a
lap. -/
theorem exists_hit (P : Sited e s.pool s.poolSize) (L : Layout e s last bs) (hnq : 0 < nq)
    (hbig : ∃ c ∈ bs, c.isFree = true ∧ nq ≤ c.size) :
    ∃ l b r prevp, bs = l ++ b :: r ∧ Hit e s nq l b r prevp ∧
      ∀ {scanFuel n fuel : Nat}, (frees bs).length < fuel →
        allocLoop e scanFuel n nq fuel s s.freep (s.next e s.freep) =
          some (Memmgr.take e n nq s prevp b.addr) := by
  obtain ⟨t, hring, hperm⟩ := L.ring.exists_rotation L.freep_mem
  have hout := (List.nodup_cons.1 (hperm.nodup_iff.2 (L.ring_nodup P))).1
  have hlen : t.length = (frees bs).length := by simpa using hperm.length_eq
  obtain ⟨c, hc, hcfree, hcnq⟩ := hbig
  have hsome : ∃ x ∈ s.freep :: t, decide (nq ≤ s.size e x) = true := by
    refine ⟨c.addr, hperm.mem_iff.2 (List.mem_cons_of_mem _ (mem_frees.2 ⟨c, hc, hcfree, rfl⟩)), ?_⟩
    rw [L.sizes c hc]
    exact decide_eq_true hcnq
  obtain ⟨u, w, x, hx, hxnq, hu, hulen, hleft, hw, hwmem, hlink, hfirst⟩ :=
    hring.exists_first hout hsome
  rw [decide_eq_true_eq] at hxnq
  obtain ⟨b, hb, hbfree, rfl⟩ : ∃ b ∈ bs, b.isFree = true ∧ b.addr = x := by
    rcases List.mem_cons.1 (hperm.mem_iff.1 hx) with rfl | h
    · rw [L.base_size] at hxnq
      omega
    · exact mem_frees.1 h
  have hbsize := L.sizes b hb
  obtain ⟨l, r, rfl⟩ := List.append_of_mem hb
  refine ⟨l, b, r, w, rfl, ⟨hbfree, by rwa [hbsize] at hxnq, hperm.mem_iff.1 hwmem, hlink,
    by rwa [← hlen]⟩, fun {scanFuel n fuel} hf => ?_⟩
  have hskip := allocLoop_skip scanFuel n nq (fuel - u.length) hleft hw
    fun y hy => ⟨by simpa using (hu y hy).1, (hu y hy).2⟩
  obtain ⟨f, hfuel⟩ : ∃ f, fuel - u.length = f + 1 := ⟨fuel - u.length - 1, by omega⟩
  rw [Nat.sub_add_cancel (by omega)] at hskip
  rw [hskip, hfuel, hlink, allocLoop, if_pos hxnq]

/-- **If no free block is large enough the search comes back to `freep`** and asks for more. -/
theorem allocLoop_missed (n fuel scanFuel : Nat) (P : Sited e s.pool s.poolSize)
    (L : Layout e s last bs) (hnq : 0 < nq) (hsmall : ∀ c ∈ bs, c.isFree = true → c.size < nq) :
    allocLoop e scanFuel n nq (fuel + 1 + (frees bs).length) s s.freep (s.next e s.freep) =
      match Memmgr.getMemFromPool e scanFuel s nq with
      | none => none
      | some (q, s) =>
        if q = 0 then some (0, s) else allocLoop e scanFuel n nq fuel s q (s.next e q) := by
  obtain ⟨lap, hlap, hout, hlen, hmem⟩ := L.exists_lap P
  have hall : ∀ x ∈ lap ++ [s.freep], s.size e x < nq := by
    intro x hx
    rcases List.mem_cons.1 ((hmem x).1 hx) with rfl | h
    · rw [L.base_size]
      exact hnq
    · obtain ⟨c, hc, hfree, rfl⟩ := mem_frees.1 h
      rw [L.sizes c hc]
      exact hsmall c hc hfree
  obtain ⟨w, hw⟩ : ∃ w, (s.freep :: lap).getLast? = some w :=
    ⟨_, List.getLast?_eq_some_getLast (List.cons_ne_nil _ _)⟩
  obtain ⟨d, hd⟩ := List.getLast?_eq_some_iff.1 hw
  have hnext : s.next e w = s.freep := by
    have h1 : s.freep :: (lap ++ [s.freep]) = d ++ w :: s.freep :: [] := by
      rw [← List.cons_append, hd]
      simp
    rw [h1] at hlap
    exact hlap.next_eq
  have hleft : Linked (s.next e) (s.freep :: lap) := List.IsChain.left_of_append hlap
  rw [← hlen, allocLoop_skip scanFuel n nq _ hleft hw
    fun y hy => ⟨hall y (List.mem_append_left _ hy), fun h => hout (h ▸ hy)⟩]
  have h1 := hall s.freep (by simp)
  rw [hnext, allocLoop, if_neg (by omega)]
  exact if_pos rfl

/-- **What the search does**, within two laps. -/
theorem search (n fuel scanFuel : Nat) (P : Sited e s.pool s.poolSize)
    (L : Layout e s (s.pool + s.poolFreePos) bs)
    (hnq : 0 < nq) (hno : s.poolFreePos + growth nq * e.hdr < e.range)
    (hf : 2 * s.poolSize.toNat + 2 ≤ fuel) (hsf : s.poolSize.toNat < scanFuel) :
    Search e n nq s bs (Memmgr.allocLoop e scanFuel n nq fuel s s.freep (s.next e s.freep)) := by
  have hlen := (length_frees_le bs).trans L.length_le
  rcases enough_or_small nq bs with hbig | hsmall
  · obtain ⟨l, b, r, prevp, hbs, H, hloop⟩ := L.exists_hit P hnq hbig
    rw [hloop (by omega)]
    exact .hit hbs H
  obtain ⟨f, rfl⟩ : ∃ f, fuel = f + 1 + (frees bs).length :=
    ⟨fuel - 1 - (frees bs).length, by omega⟩
  rw [L.allocLoop_missed n f scanFuel P hnq hsmall]
  by_cases hroom : Roomy e s nq
  · obtain ⟨s₁, hget, L₁, K₁, hfreep, hpos₁, hlarge₁⟩ :=
      L.getMemFromPool scanFuel P hno hroom (by omega)
    have P₁ := K₁.sited P
    have hlen₁ := (length_frees_le _).trans L₁.length_le
    rw [K₁.poolSize_eq] at hlen₁
    obtain ⟨l, b, r, prevp, hbs, H, hloop⟩ := L₁.exists_hit P₁ hnq (exists_grow_enough ..)
    have hq : predOf e bs ≠ 0 := by
      have h1 : s₁.freep ≠ 0 := (L₁.ring_lt P₁ L₁.freep_mem).2.ne'
      rwa [hfreep] at h1
    have hagain : Memmgr.allocLoop e scanFuel n nq f s₁ s₁.freep (s₁.next e s₁.freep) = _ :=
      hloop (by omega)
    rw [hbs] at L₁
    rw [hget]
    dsimp only
    rw [if_neg hq, ← hfreep, hagain]
    exact .grown hsmall hroom hget hbs L₁ K₁ hpos₁ hlarge₁ H
  · have hget : Memmgr.getMemFromPool e scanFuel s nq = some (0, s) :=
      getMemFromPool_refused scanFuel P.pool_pos.ne' fun h => hroom ((admits_iff hno).1 h)
    rw [hget]
    exact .refused hsmall hroom

/-- **The search of `memmgr_alloc`**: it comes back within two laps, with a block carved out of the
heap, or with null if no free block is large enough and the pool is used up. -/
theorem allocLoop (n fuel scanFuel : Nat) (P : Sited e s.pool s.poolSize)
    (L : Layout e s (s.pool + s.poolFreePos) bs)
    (hnq : 0 < nq) (hno : s.poolFreePos + growth nq * e.hdr < e.range)
    (hf : 2 * s.poolSize.toNat + 2 ≤ fuel) (hsf : s.poolSize.toNat < scanFuel) :
    (∃ bs₁ l b r s', Ready e s nq bs bs₁ s'.poolFreePos ∧ bs₁ = l ++ b :: r ∧ b.isFree = true ∧
      nq ≤ b.size ∧ Memmgr.allocLoop e scanFuel n nq fuel s s.freep (s.next e s.freep) =
        some (b.addr + (b.size - nq) * e.hdr + e.hdr, s') ∧
      Layout e s' (s'.pool + s'.poolFreePos) (carve e n nq l b r) ∧ Kept e bs s s' ∧
      s'.largestAllocation =
        if s.largestAllocation.toNat < n then UInt32.ofNat n else s.largestAllocation) ∨
    (Memmgr.allocLoop e scanFuel n nq fuel s s.freep (s.next e s.freep) = some (0, s) ∧
      (∀ c ∈ bs, c.isFree = true → c.size < nq) ∧ ¬Roomy e s nq) := by
  have hsearch := L.search n fuel scanFuel P hnq hno hf hsf
  generalize Memmgr.allocLoop e scanFuel n nq fuel s s.freep (s.next e s.freep) = result at *
  cases hsearch with
  | @hit l b r prevp hbs H =>
    subst hbs
    obtain ⟨s', htake, L', K, hpos, hlarge⟩ :=
      L.take (n := n) P H.free hnq H.enough H.prev_mem H.next
    refine Or.inl ⟨_, l, b, r, s', Or.inl ⟨rfl, hpos⟩, rfl, H.free, H.enough, congrArg some htake,
      ?_, K, hlarge⟩
    rw [K.pool_eq, hpos]
    exact L'
  | @grown _ s₁ l b r prevp small room _ hbs L₁ K₁ hpos₁ hlarge₁ H =>
    obtain ⟨s', htake, L', K, hpos, hlarge⟩ :=
      L₁.take (n := n) (K₁.sited P) H.free hnq H.enough H.prev_mem H.next
    refine Or.inl ⟨_, l, b, r, s', Or.inr ⟨small, room, hbs.symm, hpos.trans hpos₁⟩, rfl, H.free,
      H.enough, congrArg some htake, ?_, ?_, ?_⟩
    · rw [K.pool_eq, hpos]
      exact L'
    · refine K₁.trans K fun c hc hheld => ?_
      have h1 : c ∈ helds (grow (s.pool + s.poolFreePos) nq bs) := by
        rw [helds_grow]
        exact mem_helds.2 ⟨hc, hheld⟩
      rw [← hbs]
      exact (mem_helds.1 h1).1
    · rw [hlarge, hlarge₁]
  | refused small full => exact Or.inr ⟨rfl, small, full⟩

end Layout

/-! ## The whole function -/

section

variable {e : Env} {s : State} {n : Nat}

theorem quantas_pos : 0 < quantas e n := Nat.succ_pos _

/-- `ceil(nbytes / sizeof(mem_header_t)) + 1`, over the numbers. -/
def exactQuantas (e : Env) (n : Nat) : Nat := (n + e.hdr - 1) / e.hdr + 1

/-- The code computes it unless the rounding overflows. -/
theorem quantas_eq (h : n + e.hdr - 1 < e.range) : quantas e n = exactQuantas e n := by
  rw [quantas, Env.ulong_eq h, exactQuantas]

/-- The quanta hold the header and the bytes, with less than a header to spare. -/
theorem exactQuantas_bounds (e : Env) (n : Nat) :
    n + e.hdr ≤ exactQuantas e n * e.hdr ∧ exactQuantas e n * e.hdr < n + 2 * e.hdr := by
  have hpos := e.hdr_pos
  rw [exactQuantas, Nat.add_mul, Nat.one_mul]
  have h1 := Nat.div_add_mod (n + e.hdr - 1) e.hdr
  have h2 := Nat.mod_lt (n + e.hdr - 1) hpos
  rw [Nat.mul_comm] at h1
  omega

theorem quantas_bounds (h : n + e.hdr - 1 < e.range) :
    n + e.hdr ≤ quantas e n * e.hdr ∧ quantas e n * e.hdr < n + 2 * e.hdr := by
  rw [quantas_eq h]
  exact exactQuantas_bounds e n

/-- The rounding does not overflow if what is taken from the pool does not. -/
theorem round_lt {k : Nat} (hno : k + growth (exactQuantas e n) * e.hdr < e.range) :
    n + e.hdr - 1 < e.range := by
  have h1 := (exactQuantas_bounds e n).1
  have h2 := Nat.mul_le_mul_right e.hdr (le_growth (exactQuantas e n))
  omega

/-- What the code takes from the pool does not overflow either then. -/
theorem quantas_no_wrap {k : Nat} (hno : k + growth (exactQuantas e n) * e.hdr < e.range) :
    k + growth (quantas e n) * e.hdr < e.range := by
  rwa [quantas_eq (round_lt hno)]

/-- The first allocation starts the free list. -/
theorem startList_layout (h : s.freep = 0) (h0 : s.poolFreePos = 0) :
    Layout e (startList e s) ((startList e s).pool + (startList e s).poolFreePos) [] ∧
    Kept e [] s (startList e s) := by
  have hb := e.base_lt
  have h₁ := rehead_setNext (p := e.base) s (show e.base < e.range by omega)
  have h₂ := rehead_setSize (p := e.base) { s.setNext e e.base e.base with freep := e.base }
    e.range_pos
  have hnext : (s.setNext e e.base e.base).next e e.base = e.base := h₁.next_self
  rw [startList, if_pos h]
  refine ⟨⟨?_, ?_, ?_, h₂.size_self, ?_, ?_, List.IsChain.nil⟩, ⟨?_, ?_, rfl⟩⟩
  · show _ = _ + s.poolFreePos
    rw [h0, Nat.add_zero]
  · show s.pool + s.poolFreePos ≤ _
    rw [h0]
    exact Nat.add_le_add_left (Nat.zero_le _) _
  · intro b hb
    simp at hb
  · show Linked _ [e.base, e.base]
    rw [linked_cons_cons]
    exact ⟨h₂.next_self.trans hnext, linked_singleton _⟩
  · exact List.mem_cons_self
  · intro c hc
    simp at hc
  · exact fun x h1 _ => (h₂.frame x h1).trans (h₁.frame x h1)

theorem startList_of_started (h : s.freep ≠ 0) : startList e s = s := if_neg h

end

/-- More fuel does not change the result. -/
theorem getMemFromPool_mono {e : Env} {s : State} {nq fuel fuel' : Nat} {r : Nat × State}
    (h : getMemFromPool e fuel s nq = some r) (hle : fuel ≤ fuel') :
    getMemFromPool e fuel' s nq = some r := by
  rw [getMemFromPool] at h ⊢
  split at h
  · rename_i hpool
    rwa [if_pos hpool]
  · rename_i hpool
    rw [if_neg hpool]
    dsimp only at h ⊢
    generalize (if nq < minPoolAllocQuantas then minPoolAllocQuantas else nq) = k at h ⊢
    split at h
    · rename_i hroom
      rw [if_pos hroom]
      split at h
      · exact absurd h (by simp)
      · rename_i s' hfree
        rw [memmgrFree_mono hfree hle]
        exact h
    · rename_i hroom
      rwa [if_neg hroom]

theorem allocLoop_mono {e : Env} {n nq scanFuel scanFuel' : Nat} (hscan : scanFuel ≤ scanFuel') :
    ∀ {fuel fuel' : Nat} {s : State} {prevp p : Nat} {r : Nat × State},
      allocLoop e scanFuel n nq fuel s prevp p = some r → fuel ≤ fuel' →
      allocLoop e scanFuel' n nq fuel' s prevp p = some r
  | 0, _, _, _, _, _, h, _ => by simp [allocLoop] at h
  | fuel + 1, fuel', s, prevp, p, r, h, hle => by
    obtain ⟨f, rfl⟩ : ∃ f, fuel' = f + 1 := ⟨fuel' - 1, by omega⟩
    rw [allocLoop] at h ⊢
    split at h
    · rename_i hbig
      rwa [if_pos hbig]
    · rename_i hbig
      rw [if_neg hbig]
      split at h
      · rename_i hp
        rw [if_pos hp]
        split at h
        · exact absurd h (by simp)
        · rename_i q s' hget
          rw [getMemFromPool_mono hget hscan]
          dsimp only
          split at h
          · rename_i hq
            rwa [if_pos hq]
          · rename_i hq
            rw [if_neg hq]
            exact allocLoop_mono hscan h (by omega)
      · rename_i hp
        rw [if_neg hp]
        exact allocLoop_mono hscan h (by omega)

theorem memmgrAlloc_mono {e : Env} {s : State} {n fuel fuel' : Nat} {r : Nat × State}
    (h : memmgrAlloc e fuel s n = some r) (hle : fuel ≤ fuel') :
    memmgrAlloc e fuel' s n = some r := by
  rw [memmgrAlloc] at h ⊢
  split at h
  · rename_i hpool
    rwa [if_pos hpool]
  · rename_i hpool
    rw [if_neg hpool]
    split at h
    · rename_i hsess
      rwa [if_pos hsess]
    · rename_i hsess
      rw [if_neg hsess]
      exact allocLoop_mono hle h hle

/-- The state of an open session: nothing has been allocated yet, or it is the image of the list of
blocks, which ends at `pool + pool_free_pos`. -/
def Healthy (e : Env) (s : State) (bs : List Block) : Prop :=
  (s.freep = 0 ∧ s.poolFreePos = 0 ∧ bs = []) ∨ Layout e s (s.pool + s.poolFreePos) bs

/-- What `memmgr_alloc` leaves when it finds a block: the block `b` of the heap that was made ready
is carved. -/
structure Served (e : Env) (s s' : State) (n p : Nat) (bs l : List Block) (b : Block)
    (r : List Block) : Prop where
  ready : Ready e s (quantas e n) bs (l ++ b :: r) s'.poolFreePos
  free : b.isFree = true
  enough : quantas e n ≤ b.size
  ptr : p = b.addr + (b.size - quantas e n) * e.hdr + e.hdr
  layout : Layout e s' (s'.pool + s'.poolFreePos) (carve e n (quantas e n) l b r)
  kept : Kept e bs s s'
  largest : s'.largestAllocation =
    if s.largestAllocation.toNat < n then UInt32.ofNat n else s.largestAllocation

/-- What `memmgr_alloc` leaves when it returns null: no free block is large enough, and the pool is
used up. -/
structure Refused (e : Env) (s s' : State) (n : Nat) (bs : List Block) : Prop where
  small : ∀ c ∈ bs, c.isFree = true → c.size < quantas e n
  full : ¬Roomy e s (quantas e n)
  layout : Layout e s' (s'.pool + s'.poolFreePos) bs
  kept : Kept e bs s s'
  pos : s'.poolFreePos = s.poolFreePos
  largest : s'.largestAllocation = s.largestAllocation

namespace Healthy

variable {e : Env} {s : State} {bs : List Block}

theorem pos_le (H : Healthy e s bs) : s.poolFreePos ≤ s.poolSize.toNat := by
  rcases H with ⟨-, h0, -⟩ | L
  · rw [h0]
    exact Nat.zero_le _
  · exact Nat.le_of_add_le_add_left L.inside

theorem start (P : Sited e s.pool s.poolSize) (H : Healthy e s bs) :
    Layout e (startList e s) ((startList e s).pool + (startList e s).poolFreePos) bs ∧
      Kept e bs s (startList e s) ∧ (startList e s).poolFreePos = s.poolFreePos ∧
      (startList e s).largestAllocation = s.largestAllocation := by
  by_cases hf : s.freep = 0
  · rcases H with ⟨-, h0, rfl⟩ | L
    · obtain ⟨L, K⟩ := startList_layout (e := e) hf h0
      refine ⟨L, K, ?_, ?_⟩ <;> rw [startList, if_pos hf] <;> rfl
    · exact absurd hf (L.ring_lt P L.freep_mem).2.ne'
  · rw [startList_of_started hf]
    rcases H with ⟨h, -, -⟩ | L
    · exact absurd h hf
    · exact ⟨L, Kept.refl s, rfl, rfl⟩

/-- **`memmgr_alloc` always comes back**, with a block or with null. -/
theorem memmgrAlloc (n fuel : Nat) (P : Sited e s.pool s.poolSize) (H : Healthy e s bs)
    (hs : s.session ≠ 0) (hno : s.poolFreePos + growth (quantas e n) * e.hdr < e.range)
    (hf : 2 * s.poolSize.toNat + 2 ≤ fuel) :
    (∃ p s' l b r, Memmgr.memmgrAlloc e fuel s n = some (p, s') ∧
      Served e s s' n p bs l b r) ∨
    (∃ s', Memmgr.memmgrAlloc e fuel s n = some (0, s') ∧ Refused e s s' n bs) := by
  have hpool := P.pool_pos
  obtain ⟨L, K, hpos, hlarge⟩ := H.start P
  have P' := K.sited P
  have hready : ∀ {bs' pos}, Ready e (startList e s) (quantas e n) bs bs' pos →
      Ready e s (quantas e n) bs bs' pos := by
    intro bs' pos h
    rw [Ready, Roomy, hpos, K.pool_eq, K.poolSize_eq] at h
    exact h
  rw [Memmgr.memmgrAlloc, if_neg (by omega), if_neg hs]
  have hno' : (startList e s).poolFreePos + growth (quantas e n) * e.hdr < e.range := by
    rwa [hpos]
  rcases L.allocLoop n fuel fuel P' quantas_pos hno'
      (by rw [K.poolSize_eq]; omega) (by rw [K.poolSize_eq]; omega) with
    ⟨bs₁, l, b, r, s', hrdy, rfl, hb, hbn, hloop, L', K', hlarge'⟩ | ⟨hloop, hsmall, hfull⟩
  · refine Or.inl ⟨_, s', l, b, r, hloop, hready hrdy, hb, hbn, rfl, L',
      K.trans K' fun c hc _ => hc, ?_⟩
    rw [hlarge', hlarge]
  · refine Or.inr ⟨_, hloop, hsmall, ?_, L, K, hpos, hlarge⟩
    rw [Roomy, hpos, K.poolSize_eq] at hfull
    exact hfull

/-- **The whole function is a search** of the ring, once that has been started. -/
theorem search (n fuel : Nat) (P : Sited e s.pool s.poolSize) (H : Healthy e s bs)
    (hs : s.session ≠ 0) (hno : s.poolFreePos + growth (quantas e n) * e.hdr < e.range)
    (hf : 2 * s.poolSize.toNat + 2 ≤ fuel) :
    Search e n (quantas e n) (startList e s) bs (Memmgr.memmgrAlloc e fuel s n) := by
  obtain ⟨L, K, hpos, -⟩ := H.start P
  rw [Memmgr.memmgrAlloc, if_neg P.pool_pos.ne', if_neg hs]
  exact L.search n fuel fuel (K.sited P) quantas_pos (by rwa [hpos])
    (by rw [K.poolSize_eq]; omega) (by rw [K.poolSize_eq]; omega)

/-- When no free block is large enough and the test of `get_mem_from_pool` fails, `memmgr_alloc`
returns null, whatever overflowed on the way. -/
theorem memmgrAlloc_refused {n fuel : Nat} (P : Sited e s.pool s.poolSize) (H : Healthy e s bs)
    (hs : s.session ≠ 0) (hsmall : ∀ c ∈ bs, c.isFree = true → c.size < quantas e n)
    (hno : ¬Admits e s (quantas e n)) (hf : s.poolSize.toNat < fuel) :
    ∃ s', Memmgr.memmgrAlloc e fuel s n = some (0, s') ∧
      Layout e s' (s'.pool + s'.poolFreePos) bs ∧ Kept e bs s s' ∧
      s'.poolFreePos = s.poolFreePos := by
  have hpool := P.pool_pos
  obtain ⟨L, K, hpos, -⟩ := H.start P
  have hget : Memmgr.getMemFromPool e fuel (startList e s) (quantas e n) =
      some (0, startList e s) := by
    refine getMemFromPool_refused fuel (by rw [K.pool_eq]; omega) ?_
    rwa [Admits, hpos, K.poolSize_eq]
  have hlen := (length_frees_le bs).trans L.length_le
  rw [K.poolSize_eq] at hlen
  obtain ⟨f, hfuel⟩ : ∃ f, fuel = f + 1 + (frees bs).length :=
    ⟨fuel - 1 - (frees bs).length, by omega⟩
  refine ⟨startList e s, ?_, L, K, hpos⟩
  have hloop := L.allocLoop_missed n f fuel (K.sited P) quantas_pos hsmall
  rw [hget, ← hfuel] at hloop
  rw [Memmgr.memmgrAlloc, if_neg (by omega), if_neg hs]
  exact hloop

end Healthy

end Memmgr
end Zedboard
