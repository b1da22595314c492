import Zedboard.Memmgr.Fresh

/-!
# The stamps in the headers

A header carries two nonces and the offset of its payload.  `get_mem_from_pool` writes them when it
makes a block, but `memmgr_alloc` makes blocks too, when it cuts the tail off a larger one, and
gives those a size only.

* `Relinked` is the frame of everything else: nothing but successors and sizes is written;
* `headers_stamped` says when every header is stamped nevertheless: the block is taken whole, or
  the memory at the place where its header will be is stamped already (`Marked`).
-/

set_option autoImplicit false

namespace Zedboard
namespace Memmgr

variable {e : Env} {s s' s'' : State} {p q n nq : Nat} {ps qs : List Nat}

/-- The header at `p` is stamped: both nonces are in it, and its offset is the distance from the
pool to the payload. -/
structure Stamp (e : Env) (s : State) (p : Nat) : Prop where
  first : s.nonceAt e p = nonce
  second : s.nonce2At e p = nonce2
  offset : s.pool + s.offsetAt e p = p + e.hdr

/-- Every header that the walk over the heap comes to is stamped. -/
def Stamped (e : Env) (s : State) : Prop :=
  ∃ l, sweep (fun p => e.ptrAdd p (s.size e p)) (s.pool + s.poolFreePos) (s.poolSize.toNat + 1)
    s.pool = some (l, s.pool + s.poolFreePos) ∧ ∀ p ∈ l, Stamp e s p

/-- The first free block of at least `nq` quanta, from `freep` on. -/
def fit (e : Env) (s : State) (nq : Nat) : Option Nat :=
  if s.freep = 0 then none
  else
    seek (s.next e) (fun p => decide (nq ≤ s.size e p)) (s.poolSize.toNat + 1) (s.next e s.freep)

/-- The place where the header of a block for `n` bytes will be is stamped, or will be when the pool
grows: the block is the tail of the first one that is large enough, or of the least growth. -/
def Marked (e : Env) (s : State) (n : Nat) : Prop :=
  match fit e s (quantas e n) with
  | some p => Stamp e s (p + (s.size e p - quantas e n) * e.hdr)
  | none => s.pool ≠ 0 → Roomy e s (quantas e n) → minPoolAllocQuantas ≤ quantas e n ∨
      Stamp e s (s.pool + s.poolFreePos + (minPoolAllocQuantas - quantas e n) * e.hdr)

/-! ## What is written apart from stamps -/

/-- The stamp is behind the successor and the size. -/
theorem stamp_congr (hm : ∀ x, p + 2 * e.word ≤ x → x < p + e.hdr → s'.mem x = s.mem x)
    (hpool : s'.pool = s.pool) : Stamp e s' p ↔ Stamp e s p := by
  have hle := e.fields_le_hdr
  have h1 : s'.nonceAt e p = s.nonceAt e p :=
    Mem.readLE_congr fun x h1 h2 => hm x h1 (by omega)
  have h2 : s'.nonce2At e p = s.nonce2At e p :=
    Mem.readLE_congr fun x h1 h2 => hm x (by omega) (by omega)
  have h3 : s'.offsetAt e p = s.offsetAt e p :=
    Mem.readLE_congr fun x h1 h2 => hm x (by omega) (by omega)
  constructor
  · rintro ⟨hf, hs, ho⟩
    exact ⟨h1 ▸ hf, h2 ▸ hs, by rw [← h3, ← hpool, ho]⟩
  · rintro ⟨hf, hs, ho⟩
    exact ⟨h1.trans hf, h2.trans hs, by rw [h3, hpool, ho]⟩

/-- From `s` to `s'` nothing has changed in the memory but the successors and the sizes in the
headers at `ps`. -/
def Relinked (e : Env) (s s' : State) (ps : List Nat) : Prop :=
  ∀ x, (∀ p ∈ ps, x < p ∨ p + 2 * e.word ≤ x) → s'.mem x = s.mem x

namespace Relinked

theorem of_mem (h : s'.mem = s.mem) : Relinked e s s' ps := fun _ _ => by rw [h]

theorem mono (h : Relinked e s s' ps) (hsub : ps ⊆ qs) : Relinked e s s' qs :=
  fun x hx => h x fun p hp => hx p (hsub hp)

theorem trans (h : Relinked e s s' ps) (h' : Relinked e s' s'' ps) : Relinked e s s'' ps :=
  fun x hx => (h' x hx).trans (h x hx)

theorem setNext (hp : p ∈ ps) (v : Nat) : Relinked e s (s.setNext e p v) ps := fun x hx => by
  have := hx p hp
  exact Mem.writeLE_of_outside _ (by omega)

theorem setSize (hp : p ∈ ps) (v : Nat) : Relinked e s (s.setSize e p v) ps := fun x hx => by
  have := hx p hp
  exact Mem.writeLE_of_outside _ (by omega)

/-- Stamps stay as they are. -/
theorem stamp_iff (h : Relinked e s s' ps) (hpool : s'.pool = s.pool)
    (hq : ∀ p ∈ ps, p = q ∨ Sep e p q) : Stamp e s' q ↔ Stamp e s q := by
  have hle := e.fields_le_hdr
  refine stamp_congr (fun x h1 h2 => h x fun p hp => ?_) hpool
  rcases hq p hp with rfl | hsep | hsep
  · exact Or.inr h1
  · exact Or.inr (by omega)
  · exact Or.inl (by omega)

end Relinked

theorem startList_relinked (s : State) : Relinked e s (startList e s) [e.base] := by
  rw [startList]
  split
  · exact (Relinked.setNext (s := s) (List.mem_singleton_self _) e.base).trans
      (Relinked.setSize (List.mem_singleton_self _) 0)
  · exact Relinked.of_mem rfl

/-- Taking a block writes into its header, that of its predecessor and that of its tail. -/
theorem take_relinked (n nq : Nat) (s : State) (prevp p : Nat) (hnq : nq ≤ s.size e p) :
    Relinked e s (take e n nq s prevp p).2 [prevp, p, e.ptrAdd p (s.size e p - nq)] := by
  have hlt : s.size e p - nq < e.range := by
    have : s.size e p < e.range := Mem.readLE_lt _ _ _
    omega
  have hsize : (s.setSize e p (s.size e p - nq)).size e p = s.size e p - nq :=
    (rehead_setSize s hlt).size_self
  obtain ⟨tail, htail⟩ : ∃ tail, e.ptrAdd p (s.size e p - nq) = tail := ⟨_, rfl⟩
  rw [take, htail]
  dsimp only
  split
  · have h : Relinked e s (s.setNext e prevp (s.next e p)) [prevp, p, tail] :=
      .setNext (by simp) _
    split
    · exact h
    · exact h
  · rw [hsize, htail]
    have h : Relinked e s ((s.setSize e p (s.size e p - nq)).setSize e tail nq)
        [prevp, p, tail] := .trans (.setSize (by simp) _) (.setSize (by simp) _)
    split
    · exact h
    · exact h

/-- Freeing a block writes into its header and into that of its predecessor. -/
theorem free_relinked {fuel ap : Nat} (h : memmgrFree e fuel s ap = some s') :
    Relinked e s s' [e.ptrPred ap, s'.freep] := by
  by_cases hno : s.pool = 0 ∨ ap = 0
  · rw [memmgrFree_noop hno] at h
    cases h
    exact Relinked.of_mem rfl
  rw [memmgrFree_eq hno] at h
  obtain ⟨p, -, rfl⟩ := Option.map_eq_some_iff.1 h
  have hhigher : Relinked e s (mergeHigher e s (e.ptrPred ap) p) [e.ptrPred ap, p] := by
    rw [mergeHigher]
    split
    · exact (Relinked.setSize (by simp) _).trans (Relinked.setNext (by simp) _)
    · exact Relinked.setNext (by simp) _
  have hlower : ∀ t : State, Relinked e t (mergeLower e t (e.ptrPred ap) p) [e.ptrPred ap, p] := by
    intro t
    rw [mergeLower]
    split
    · exact (Relinked.setSize (by simp) _).trans (Relinked.setNext (by simp) _)
    · exact Relinked.setNext (by simp) _
  exact hhigher.trans (hlower _)

/-- The three stores that make a stamp. -/
theorem stamp_set (s : State) {o : Nat} (ho : o < 256 ^ 4) (hoff : s.pool + o = p + e.hdr) :
    Stamp e (((s.setNonce e p nonce).setNonce2 e p nonce2).setOffset e p o) p := by
  refine ⟨?_, ?_, ?_⟩
  · refine (Mem.readLE_writeLE_of_apart _ (Or.inr (by omega))).trans ?_
    refine (Mem.readLE_writeLE_of_apart _ (Or.inr (by omega))).trans ?_
    exact Mem.readLE_writeLE_of_lt _ (by decide)
  · refine (Mem.readLE_writeLE_of_apart _ (Or.inr (by omega))).trans ?_
    exact Mem.readLE_writeLE_of_lt _ (by decide)
  · exact (congrArg (s.pool + ·) (Mem.readLE_writeLE_of_lt _ ho)).trans hoff

/-- `get_mem_from_pool` writes a stamped header at the end of the heap, and then frees the block. -/
theorem getMemFromPool_stamps {fuel : Nat} (hpool : s.pool ≠ 0)
    (hfits : s.pool + s.poolSize.toNat < e.range)
    (hno : s.poolFreePos + growth nq * e.hdr < e.range) (hroom : Roomy e s nq)
    (h : getMemFromPool e fuel s nq = some (q, s')) :
    q = s'.freep ∧ ∃ s₀, Stamp e s₀ (s.pool + s.poolFreePos) ∧ s₀.pool = s.pool ∧
      (∀ x, x < s.pool + s.poolFreePos ∨ s.pool + s.poolFreePos + e.hdr ≤ x →
        s₀.mem x = s.mem x) ∧
      Relinked e s₀ s' [s.pool + s.poolFreePos, s'.freep] := by
  obtain ⟨htotal, hsum⟩ := total_eq hno
  have hpos := e.hdr_pos
  have hle := e.fields_le_hdr
  have hgh : e.hdr ≤ growth nq * e.hdr := Nat.le_mul_of_pos_left _ (growth_pos nq)
  have hroom' : s.poolFreePos + growth nq * e.hdr ≤ s.poolSize.toNat := hroom
  have hlast : (s.pool + s.poolFreePos) % e.range = s.pool + s.poolFreePos :=
    Nat.mod_eq_of_lt (by omega)
  have hgrowth : (if nq < minPoolAllocQuantas then minPoolAllocQuantas else nq) = growth nq := rfl
  rw [getMemFromPool, if_neg hpool] at h
  simp only [hgrowth, htotal, hsum, hlast, if_pos hroom', stamp_poolFreePos] at h
  generalize hs₀ : (((s.setSize e (s.pool + s.poolFreePos) (growth nq)).setNonce e
    (s.pool + s.poolFreePos) nonce).setNonce2 e (s.pool + s.poolFreePos) nonce2).setOffset e
      (s.pool + s.poolFreePos) (s.poolFreePos + e.hdr) = s₀ at h
  have hframe := (rehead_stamp (e := e) (p := s.pool + s.poolFreePos) s nonce nonce2
    (s.poolFreePos + e.hdr) (show growth nq < e.range by
      have := Nat.le_mul_of_pos_right (growth nq) hpos
      omega)).frame
  rw [hs₀] at hframe
  have hstamp : Stamp e s₀ (s.pool + s.poolFreePos) := by
    have := s.poolSize.toNat_lt
    rw [← hs₀]
    exact stamp_set _ (by omega) (Nat.add_assoc _ _ _).symm
  split at h
  · exact absurd h (by simp)
  · rename_i s₁ hfree
    have hblock : e.ptrPred (e.ptrAdd (s.pool + s.poolFreePos) 1) = s.pool + s.poolFreePos := by
      rw [Env.ptrAdd_eq (by omega), Nat.one_mul, Env.ptrPred_add (by omega)]
    have hlinks := free_relinked hfree
    rw [hblock] at hlinks
    cases h
    exact ⟨rfl, s₀, hstamp, by rw [← hs₀]; rfl, hframe, hlinks⟩

/-! ## The headers of the heap -/

section

variable {l r bs : List Block} {b c : Block} {last prevp : Nat}

/-- Carving adds one header, at the beginning of the tail. -/
theorem mem_carve_addr : q ∈ (carve e n nq l b r).map Block.addr ↔
    q ∈ (l ++ b :: r).map Block.addr ∨ q = b.addr + (b.size - nq) * e.hdr := by
  rw [carve]
  split
  · rename_i heq
    rw [heq, Nat.sub_self, Nat.zero_mul, Nat.add_zero]
    simp only [List.map_append, List.map_cons, List.mem_append, List.mem_cons]
    tauto
  · simp only [List.map_append, List.map_cons, List.mem_append, List.mem_cons]
    tauto

/-- Releasing adds none. -/
theorem mem_of_mem_release_addr (h : q ∈ (release l b r).map Block.addr) :
    q ∈ (l ++ b :: r).map Block.addr := by
  have habs : q ∈ ((absorb b r).1 :: (absorb b r).2).map Block.addr →
      q ∈ (b :: r).map Block.addr := by
    intro h
    rcases List.mem_cons.1 h with h | h
    · rw [h, absorb_addr]
      exact List.mem_cons_self
    · obtain ⟨u, hu⟩ := absorb_suffix b r
      rw [List.map_cons, ← hu, List.map_append]
      exact List.mem_cons_of_mem _ (List.mem_append_right _ h)
  rw [release] at h
  rw [List.map_append, List.mem_append]
  rcases join_cases l (absorb b r).1 (absorb b r).2 with ⟨l', c, rfl, -, heq⟩ | ⟨-, heq⟩
  · rw [heq, List.map_append, List.mem_append] at h
    rcases h with h | h
    · exact Or.inl (by rw [List.map_append]; exact List.mem_append_left _ h)
    · rcases List.mem_cons.1 h with rfl | h
      · exact Or.inl (by simp)
      · exact Or.inr (habs (List.mem_cons_of_mem _ h))
  · rw [heq, List.map_append, List.mem_append] at h
    exact h.imp_right habs

namespace Layout

/-- The walk comes to the headers of the blocks. -/
theorem stamped_iff (P : Sited e s.pool s.poolSize)
    (L : Layout e s (s.pool + s.poolFreePos) bs) :
    Stamped e s ↔ ∀ q ∈ bs.map Block.addr, Stamp e s q := by
  have hlen := L.length_le
  have hwalk : sweep (fun p => e.ptrAdd p (s.size e p)) (s.pool + s.poolFreePos)
      (s.poolSize.toNat + 1) s.pool = some (bs.map Block.addr, s.pool + s.poolFreePos) := by
    refine L.tiles.sweep_eq (fun b hb => ?_) (by omega)
    rw [L.sizes b hb]
    exact L.ptrAdd_size P hb
  rw [Stamped, hwalk]
  constructor
  · rintro ⟨l, hl, h⟩
    obtain ⟨rfl, -⟩ := Prod.mk.inj (Option.some.inj hl)
    exact h
  · exact fun h => ⟨_, rfl, h⟩

/-- The place in a free block where its tail will begin is the header of the block itself or lies
apart from all headers. -/
theorem sep_tail (P : Sited e s.pool s.poolSize) (L : Layout e s last (l ++ b :: r)) (hnq : 0 < nq)
    (hle : nq ≤ b.size) (hq : q ∈ e.base :: (l ++ b :: r).map Block.addr) :
    q = b.addr + (b.size - nq) * e.hdr ∨ Sep e q (b.addr + (b.size - nq) * e.hdr) := by
  have hpos := e.hdr_pos
  by_cases heq : b.size = nq
  · rw [heq, Nat.sub_self, Nat.zero_mul, Nat.add_zero]
    by_cases hqb : q = b.addr
    · exact Or.inl hqb
    · exact Or.inr (L.sep_heads P hq (by simp) hqb)
  · have hbytes : (b.size - nq) * e.hdr + nq * e.hdr = b.bytes e := by
      rw [Block.bytes, ← Nat.add_mul, Nat.sub_add_cancel hle]
    have hfirst : e.hdr ≤ (b.size - nq) * e.hdr := Nat.le_mul_of_pos_left _ (by omega)
    have hsecond : e.hdr ≤ nq * e.hdr := Nat.le_mul_of_pos_left _ hnq
    exact Or.inr (L.sep_inside (b := b) P (by simp) (by omega) (by omega) hq).symm

/-- So all of these places are the same or apart. -/
theorem sep_places (P : Sited e s.pool s.poolSize) (L : Layout e s last (l ++ b :: r))
    (hnq : 0 < nq) (hle : nq ≤ b.size)
    (hp : p ∈ e.base :: (l ++ b :: r).map Block.addr ∨ p = b.addr + (b.size - nq) * e.hdr)
    (hq : q ∈ e.base :: (l ++ b :: r).map Block.addr ∨ q = b.addr + (b.size - nq) * e.hdr) :
    p = q ∨ Sep e p q := by
  rcases hp with hp | rfl
  · rcases hq with hq | rfl
    · by_cases hpq : p = q
      · exact Or.inl hpq
      · exact Or.inr (L.sep_heads P hp hq hpq)
    · exact L.sep_tail P hnq hle hp
  · rcases hq with hq | rfl
    · exact (L.sep_tail P hnq hle hq).imp Eq.symm Sep.symm
    · exact Or.inl rfl

/-- **When a block is taken** every header is stamped exactly when the headers were and the place
where the tail begins was. -/
theorem stamped_take (P : Sited e s.pool s.poolSize)
    (L : Layout e s (s.pool + s.poolFreePos) (l ++ b :: r)) (hnq : 0 < nq)
    (H : Hit e s nq l b r prevp) :
    Stamped e (Memmgr.take e n nq s prevp b.addr).2 ↔
      (∀ q ∈ (l ++ b :: r).map Block.addr, Stamp e s q) ∧
        Stamp e s (b.addr + (b.size - nq) * e.hdr) := by
  have hbsize := L.sizes b (by simp)
  obtain ⟨s', htake, L', K, hpos, -⟩ :=
    L.take (n := n) P H.free hnq H.enough H.prev_mem H.next
  have hlinks := take_relinked n nq s prevp b.addr (by rw [hbsize]; exact H.enough)
  have htail : e.ptrAdd b.addr (b.size - nq) = b.addr + (b.size - nq) * e.hdr := by
    have h1 := L.bounds (b := b) (by simp)
    have h2 := L.addr_lt P (b := b) (by simp)
    have h3 : (b.size - nq) * e.hdr ≤ b.bytes e := Nat.mul_le_mul_right _ (Nat.sub_le _ _)
    exact Env.ptrAdd_eq (by omega)
  rw [hbsize, htail, htake] at hlinks
  rw [htake]
  rw [← hpos, ← K.pool_eq] at L'
  -- the headers that are written to are those of the heap, and the tail's
  have hkept : ∀ q, q ∈ (l ++ b :: r).map Block.addr ∨ q = b.addr + (b.size - nq) * e.hdr →
      (Stamp e s' q ↔ Stamp e s q) := by
    intro q hq
    refine hlinks.stamp_iff K.pool_eq fun w hw => L.sep_places P hnq H.enough ?_
      (hq.imp_left (List.mem_cons_of_mem _))
    simp only [List.mem_cons, List.not_mem_nil, or_false] at hw
    rcases hw with rfl | rfl | rfl
    · exact Or.inl (mem_heads_of_ring H.prev_mem)
    · exact Or.inl (by simp)
    · exact Or.inr rfl
  rw [L'.stamped_iff (K.sited P)]
  constructor
  · intro h
    exact ⟨fun q hq => (hkept q (Or.inl hq)).1 (h q (mem_carve_addr.2 (Or.inl hq))),
      (hkept _ (Or.inr rfl)).1 (h _ (mem_carve_addr.2 (Or.inr rfl)))⟩
  · rintro ⟨hheads, htl⟩ q hq
    rcases mem_carve_addr.1 hq with hq | rfl
    · exact (hkept q (Or.inl hq)).2 (hheads q hq)
    · exact (hkept _ (Or.inr rfl)).2 htl

/-- A header behind the blocks lies apart from theirs. -/
theorem sep_behind (P : Sited e s.pool s.poolSize) (L : Layout e s last bs) (hp : last ≤ p)
    (hin : p + e.hdr ≤ s.pool + s.poolSize.toNat) (hq : q ∈ e.base :: bs.map Block.addr) :
    Sep e q p := by
  have hle := L.tiles.le
  rcases List.mem_cons.1 hq with rfl | hq
  · rcases P.beside with h | h
    · exact Or.inl (by omega)
    · exact Or.inr (by omega)
  · obtain ⟨c, hc, rfl⟩ := List.mem_map.1 hq
    have hpos := e.hdr_pos
    have h1 := L.bounds hc
    have h2 : e.hdr ≤ c.bytes e := by
      refine Nat.le_mul_of_pos_left _ (Nat.pos_of_ne_zero fun h0 => ?_)
      rw [Block.bytes, h0, Nat.zero_mul] at h1
      omega
    exact Or.inl (by omega)

end Layout

/-- When the heap has grown because nothing in it is large enough, the tail that is taken is that of
what it has grown by. -/
theorem grown_tail {a : Nat} (htiles : Tiles Block.addr (Block.bytes e) a bs last)
    (hsmall : ∀ c ∈ bs, c.isFree = true → c.size < nq) (hbs : grow last nq bs = l ++ b :: r)
    (hb : b.isFree = true) (hle : nq ≤ b.size) :
    b.addr + (b.size - nq) * e.hdr = last + (growth nq - nq) * e.hdr := by
  have hmem : b ∈ grow last nq bs := by
    rw [hbs]
    simp
  have hgrowth := le_growth nq
  rw [grow, release, absorb] at hmem
  rcases join_cases bs ⟨last, growth nq, none⟩ [] with ⟨l', c, rfl, -, heq⟩ | ⟨-, heq⟩
  · rw [heq] at hmem
    rcases List.mem_append.1 hmem with h | h
    · have := hsmall b (List.mem_append_left _ h) hb
      omega
    · obtain rfl := List.mem_singleton.1 h
      obtain ⟨-, -, hend⟩ := tiles_append_cons.1 htiles
      have hlast : c.addr + c.size * e.hdr = last := tiles_nil.1 hend
      dsimp only
      rw [Nat.add_sub_assoc hgrowth, Nat.add_mul, ← Nat.add_assoc, hlast]
  · rw [heq] at hmem
    rcases List.mem_append.1 hmem with h | h
    · have := hsmall b h hb
      omega
    · obtain rfl := List.mem_singleton.1 h
      rfl

namespace Layout

/-- When the pool grows the new header is stamped.  A place that lies apart from it, and is that of
the header in front of it or apart from that too, is stamped as before. -/
theorem grow_stamp {s₁ : State} {fuel : Nat} (P : Sited e s.pool s.poolSize)
    (L : Layout e s (s.pool + s.poolFreePos) bs)
    (hno : s.poolFreePos + growth nq * e.hdr < e.range) (hroom : Roomy e s nq)
    (hget : Memmgr.getMemFromPool e fuel s nq = some (predOf e bs, s₁))
    (hpool : s₁.pool = s.pool) :
    Stamp e s₁ (s.pool + s.poolFreePos) ∧
      ∀ q, Sep e (s.pool + s.poolFreePos) q → (predOf e bs = q ∨ Sep e (predOf e bs) q) →
        (Stamp e s₁ q ↔ Stamp e s q) := by
  obtain ⟨hfreep, s₀, hstamp, hpool₀, hframe, hlinks⟩ :=
    getMemFromPool_stamps P.pool_pos.ne' P.fits hno hroom hget
  rw [← hfreep] at hlinks
  have hfits : s.poolFreePos + growth nq * e.hdr ≤ s.poolSize.toNat := hroom
  have hgh : e.hdr ≤ growth nq * e.hdr := Nat.le_mul_of_pos_left _ (growth_pos nq)
  refine ⟨(hlinks.stamp_iff (hpool.trans hpool₀.symm) fun w hw => ?_).2 hstamp,
    fun q hq hp => (hlinks.stamp_iff (hpool.trans hpool₀.symm) fun w hw => ?_).trans
      (stamp_congr (fun x h1 h2 => hframe x ?_) hpool₀)⟩
  · simp only [List.mem_cons, List.not_mem_nil, or_false] at hw
    rcases hw with rfl | rfl
    · exact Or.inl rfl
    · exact Or.inr (L.sep_behind P (le_refl _) (by omega) (mem_heads_of_ring (predOf_mem e bs)))
  · simp only [List.mem_cons, List.not_mem_nil, or_false] at hw
    rcases hw with rfl | rfl
    · exact Or.inr hq
    · exact hp
  · rcases hq with hq | hq
    · exact Or.inr (by omega)
    · exact Or.inl (by omega)

/-- **When the pool grows** the new header is stamped, the others stay as they are, and so does the
place where the tail begins unless it is the new header itself. -/
theorem stamped_grow {s₁ : State} {fuel : Nat} (P : Sited e s.pool s.poolSize)
    (L : Layout e s (s.pool + s.poolFreePos) bs)
    (hno : s.poolFreePos + growth nq * e.hdr < e.range) (hroom : Roomy e s nq) (hnq : 0 < nq)
    (hget : Memmgr.getMemFromPool e fuel s nq = some (predOf e bs, s₁))
    (hpool : s₁.pool = s.pool) (h : ∀ q ∈ bs.map Block.addr, Stamp e s q) :
    (∀ q ∈ (grow (s.pool + s.poolFreePos) nq bs).map Block.addr, Stamp e s₁ q) ∧
      (Stamp e s₁ (s.pool + s.poolFreePos + (growth nq - nq) * e.hdr) ↔
        minPoolAllocQuantas ≤ nq ∨
          Stamp e s (s.pool + s.poolFreePos + (minPoolAllocQuantas - nq) * e.hdr)) := by
  obtain ⟨hnew, hkept⟩ := L.grow_stamp P hno hroom hget hpool
  have hpos := e.hdr_pos
  have hfits : s.poolFreePos + growth nq * e.hdr ≤ s.poolSize.toNat := hroom
  have hgh : e.hdr ≤ growth nq * e.hdr := Nat.le_mul_of_pos_left _ (growth_pos nq)
  have hpred : predOf e bs ∈ e.base :: bs.map Block.addr := mem_heads_of_ring (predOf_mem e bs)
  refine ⟨fun q hq => ?_, ?_⟩
  · have hcases := mem_of_mem_release_addr hq
    rw [List.map_append, List.mem_append] at hcases
    rcases hcases with hq | hq
    · have hheads := List.mem_cons_of_mem e.base hq
      have hbehind := L.sep_behind P (le_refl _) (by omega) hheads
      refine (hkept q hbehind.symm ?_).2 (h q hq)
      by_cases hpq : predOf e bs = q
      · exact Or.inl hpq
      · exact Or.inr (L.sep_heads P hpred hheads hpq)
    · obtain rfl : q = s.pool + s.poolFreePos := by simpa using hq
      exact hnew
  · by_cases hmin : minPoolAllocQuantas ≤ nq
    · have hgrowth : growth nq = nq := if_neg (by omega)
      rw [hgrowth, Nat.sub_self, Nat.zero_mul, Nat.add_zero]
      exact iff_of_true hnew (Or.inl hmin)
    · have hgrowth : growth nq = minPoolAllocQuantas := if_pos (by omega)
      have hsum : (growth nq - nq) * e.hdr + nq * e.hdr = growth nq * e.hdr := by
        rw [← Nat.add_mul, Nat.sub_add_cancel (le_growth nq)]
      have hfirst : e.hdr ≤ (growth nq - nq) * e.hdr := Nat.le_mul_of_pos_left _ (by omega)
      have hsecond : e.hdr ≤ nq * e.hdr := Nat.le_mul_of_pos_left _ hnq
      have hapart := L.sep_behind (p := s.pool + s.poolFreePos + (growth nq - nq) * e.hdr) P
        (by omega) (by omega) hpred
      rw [hkept _ (Or.inl (by omega)) (Or.inr hapart), hgrowth]
      exact ⟨Or.inr, fun h => h.resolve_left hmin⟩

end Layout

end

/-! ## The actions of a client -/

namespace Accounted

variable {S : Session} {bs : List Block}

/-- The walk comes to the headers of the blocks. -/
theorem stamped_iff (I : Accounted e S bs) :
    Stamped e S.st ↔ ∀ q ∈ bs.map Block.addr, Stamp e S.st q := by
  rcases I.healthy with ⟨-, hpos, rfl⟩ | L
  · refine iff_of_true ⟨[], ?_, by simp⟩ (by simp)
    rw [sweep, hpos, if_neg (by omega)]
    rfl
  · rcases I.place with ⟨-, -, hpos, rfl⟩ | P
    · refine iff_of_true ⟨[], ?_, by simp⟩ (by simp)
      rw [sweep, hpos, if_neg (by omega)]
      rfl
    · exact L.stamped_iff P

/-- The first block that is large enough. -/
theorem fit_of_hit (I : Accounted e S bs) {l r : List Block} {b : Block} {prevp : Nat}
    (hbs : bs = l ++ b :: r) (H : Hit e S.st nq l b r prevp) : fit e S.st nq = some b.addr := by
  subst hbs
  obtain ⟨P, L⟩ := I.layout (Or.inl (by simp))
  have hlen := (length_frees_le _).trans L.length_le
  rw [fit, if_neg (L.ring_lt P L.freep_mem).2.ne']
  exact seek_mono H.first (by omega)

/-- There is none. -/
theorem fit_of_small (I : Accounted e S bs) (hnq : 0 < nq)
    (hsmall : ∀ c ∈ bs, c.isFree = true → c.size < nq) : fit e S.st nq = none := by
  rw [fit]
  split
  · rfl
  rename_i h0
  obtain ⟨P, L⟩ := I.layout (Or.inr h0)
  refine Option.eq_none_iff_forall_ne_some.2 fun q hq => ?_
  obtain ⟨hmem, hle⟩ := of_seek (C := fun x => x ∈ e.base :: frees bs)
    (fun x hx => L.ring.next_mem hx) hq (L.ring.next_mem L.freep_mem)
  rw [decide_eq_true_eq] at hle
  rcases List.mem_cons.1 hmem with rfl | hmem
  · rw [L.base_size] at hle
    omega
  · obtain ⟨c, hc, hfree, rfl⟩ := mem_frees.1 hmem
    rw [L.sizes c hc] at hle
    have := hsmall c hc hfree
    omega

/-- Freeing writes no stamp and takes none away. -/
theorem stamped_free (I : Accounted e S bs) {p n fuel : Nat} (hp : (p, n) ∈ S.live)
    (h : memmgrFree e fuel S.st p = some s') (hs : Stamped e S.st) : Stamped e s' := by
  rw [I.stamped_iff] at hs
  obtain ⟨l, b, r, rfl, hreq, hbp, -⟩ := I.exists_block hp
  obtain ⟨P, L⟩ := I.layout (Or.inl (by simp))
  have hb : b.isFree = false := by rw [Block.isFree, hreq]; rfl
  have hlen : (frees l ++ frees r).length < fuel + (frees l ++ frees r).length + 1 := by omega
  obtain ⟨s'', hfree, L', K, hfreep, hpos, -⟩ := L.memmgrFree P hb hlen
  rw [hbp] at hfree
  obtain rfl := Option.some.inj ((memmgrFree_mono h (by omega)).symm.trans hfree)
  rw [← hpos, ← K.pool_eq] at L'
  have hlinks := free_relinked h
  rw [← hbp, Env.ptrPred_add (by have := L.addr_lt P (b := b) (by simp); omega), hfreep] at hlinks
  rw [L'.stamped_iff (K.sited P)]
  intro q hq
  have hq' := mem_of_mem_release_addr hq
  refine (hlinks.stamp_iff K.pool_eq fun w hw => ?_).2 (hs q hq')
  have hwmem : w ∈ e.base :: (l ++ b :: r).map Block.addr := by
    simp only [List.mem_cons, List.not_mem_nil, or_false] at hw
    rcases hw with rfl | rfl
    · simp
    · exact Layout.mem_heads_of_ring (Layout.pred_mem_ring hb)
  by_cases hwq : w = q
  · exact Or.inl hwq
  · exact Or.inr (L.sep_heads P hwmem (List.mem_cons_of_mem _ hq') hwq)

/-- Nor does storing where a client may store. -/
theorem stamped_store (I : Accounted e S bs) {a : Nat} (v : UInt8)
    (ha : S.Held a ∨ S.Foreign e a) (hs : Stamped e S.st) :
    Stamped e { S.st with mem := Function.update S.st.mem a v } := by
  refine (I.store v ha).stamped_iff.2 fun q hq => ?_
  have hout := I.outside ha (List.mem_cons_of_mem _ hq)
  have hkept : Stamp e { S.st with mem := Function.update S.st.mem a v } q ↔ Stamp e S.st q :=
    stamp_congr (fun x h1 h2 => Function.update_of_ne (by omega) _ _) rfl
  exact hkept.2 (I.stamped_iff.1 hs q hq)

end Accounted

/-- The tail of the least growth lies apart from `base`. -/
theorem sep_base_place (P : Sited e s.pool s.poolSize) (hroom : Roomy e s nq) (hnq : 0 < nq)
    (hmin : ¬minPoolAllocQuantas ≤ nq) :
    Sep e e.base (s.pool + s.poolFreePos + (minPoolAllocQuantas - nq) * e.hdr) := by
  have hgrowth : growth nq = minPoolAllocQuantas := if_pos (by omega)
  have hsum : (minPoolAllocQuantas - nq) * e.hdr + nq * e.hdr = minPoolAllocQuantas * e.hdr := by
    rw [← Nat.add_mul, Nat.sub_add_cancel (by omega)]
  have hsecond : e.hdr ≤ nq * e.hdr := Nat.le_mul_of_pos_left _ hnq
  rw [Roomy, hgrowth] at hroom
  rcases P.beside with h | h
  · exact Or.inl (by omega)
  · exact Or.inr (by omega)

/-- **A request leaves every header stamped exactly when its place is marked.** -/
theorem Inv.stamped_alloc {S : Session} {bs : List Block} (I : Inv e S bs) {n p fuel : Nat}
    (hn : n ≤ S.st.poolSize.toNat) (h : memmgrAlloc e fuel S.st n = some (p, s'))
    (hs : Stamped e S.st) : Stamped e s' ↔ Marked e S.st n := by
  rcases I.place with ⟨hpool, h0, hpos, rfl⟩ | P
  · rw [memmgrAlloc, if_pos hpool] at h
    cases h
    rw [Marked, I.fit_of_small quantas_pos (by simp)]
    exact iff_of_true hs fun hne => absurd hpool hne
  have hstamps := I.stamped_iff.1 hs
  have hno := quantas_no_wrap (I.no_wrap P hn)
  have hsearch := I.healthy.search n (fuel + (2 * S.st.poolSize.toNat + 2)) P I.session hno
    (by omega)
  obtain ⟨L, K, hpos, -⟩ := I.healthy.start P
  have P₁ := K.sited P
  -- starting the free list writes into `base` only
  have hstart : ∀ q, Sep e e.base q → (Stamp e (startList e S.st) q ↔ Stamp e S.st q) :=
    fun q hq => (startList_relinked S.st).stamp_iff K.pool_eq fun w hw => by
      obtain rfl := List.mem_singleton.1 hw
      exact Or.inr hq
  have hheads : ∀ q ∈ bs.map Block.addr, Stamp e (startList e S.st) q := fun q hq => by
    obtain ⟨c, hc, rfl⟩ := List.mem_map.1 hq
    exact (hstart _ (L.sep_base P₁ hc)).2 (hstamps _ hq)
  rw [memmgrAlloc_mono h (by omega)] at hsearch
  generalize hres : some (p, s') = res at hsearch
  cases hsearch with
  | @hit l b r prevp hbs H =>
    subst hbs
    have hstarted : startList e S.st = S.st := by
      obtain ⟨-, L⟩ := I.layout (Or.inl (by simp))
      exact startList_of_started (L.ring_lt P L.freep_mem).2.ne'
    have htake := L.stamped_take (n := n) P₁ quantas_pos H
    have hs' : s' = (take e n (quantas e n) (startList e S.st) prevp b.addr).2 :=
      congrArg Prod.snd (Option.some.inj hres)
    rw [hstarted] at htake hs' H
    rw [hs', htake, Marked, I.fit_of_hit rfl H]
    dsimp only
    rw [I.tiles.2.2.1 b (by simp)]
    exact and_iff_right hstamps
  | @grown sf s₁ l b r prevp small room get hbs L₁ K₁ hpos₁ _ H =>
    have hno₁ : (startList e S.st).poolFreePos + growth (quantas e n) * e.hdr < e.range := by
      rwa [hpos]
    obtain ⟨hgrown, htail⟩ := L.stamped_grow P₁ hno₁ room quantas_pos get K₁.pool_eq hheads
    have htake := L₁.stamped_take (n := n) (K₁.sited P₁) quantas_pos H
    rw [grown_tail L.tiles small hbs H.free H.enough, ← hbs, and_iff_right hgrown, htail] at htake
    have hs' : s' = (take e n (quantas e n) s₁ prevp b.addr).2 :=
      congrArg Prod.snd (Option.some.inj hres)
    have hroom : Roomy e S.st (quantas e n) := by
      rwa [Roomy, hpos, K.poolSize_eq] at room
    have hplace := or_congr_right' fun hmin : ¬minPoolAllocQuantas ≤ quantas e n =>
      hstart _ (sep_base_place P hroom quantas_pos hmin)
    rw [hs', htake, Marked, I.fit_of_small quantas_pos small, K.pool_eq, hpos, hplace]
    exact ⟨fun h _ _ => h, fun h => h P.pool_pos.ne' hroom⟩
  | refused small full =>
    rw [Roomy, hpos, K.poolSize_eq] at full
    have hs' : s' = startList e S.st := congrArg Prod.snd (Option.some.inj hres)
    rw [hs', Marked, I.fit_of_small quantas_pos small]
    exact iff_of_true ((L.stamped_iff P₁).2 hheads) fun _ hroom => absurd hroom full

/-! ## Whole runs -/

/-- The request is for a place that is marked. -/
def Marks (e : Env) (S : Session) : Op → Prop
  | .alloc n => Marked e S.st n
  | _ => True

/-- Any number of actions of which the requests are for places that are marked. -/
def MarkedRun (e : Env) : Session → Session → Prop :=
  Relation.ReflTransGen fun S S' => ∃ op, Marks e S op ∧ Step e S op S'

theorem MarkedRun.run {S S' : Session} (h : MarkedRun e S S') : Run e (fun _ => True) S S' := by
  refine Relation.ReflTransGen.mono ?_ _ _ h
  rintro S S' ⟨op, -, hop⟩
  exact ⟨op, trivial, hop⟩

/-- **One action keeps every header stamped** if it is such a request or none. -/
theorem Inv.stamped_step {S S' : Session} {bs : List Block} (I : Inv e S bs) {op : Op}
    (hop : Marks e S op) (h : Step e S op S') (hs : Stamped e S.st) : Stamped e S'.st := by
  cases h with
  | alloc hn halloc => exact (I.stamped_alloc hn halloc hs).2 hop
  | free hp hfree => exact I.stamped_free hp hfree hs
  | store ha => exact I.stamped_store _ ha hs

/-- The offset in a stamped header leads to the physical address of the payload. -/
theorem Stamp.physical (h : Stamp e s p) (hpool : s.pool ≠ 0) :
    lookupBufferPhysicalAddress s (p + e.hdr) = s.baseAddress + UInt32.ofNat (s.offsetAt e p) := by
  rw [lookupBufferPhysicalAddress, if_neg hpool, ← h.offset, UInt32.ofNat_add,
    UInt32.add_comm (UInt32.ofNat s.pool), UInt32.add_sub_cancel]

/-- **The headers are stamped** in every state of a run in which every request is for a place that
is marked, and then the offsets lead to the physical addresses.  A request for any other place ends
that. -/
theorem headers_stamped {s : State} {buffer : Nat} {length baseAddress : UInt32}
    (hs : s.session = 0) (hp : buffer = 0 ∨ Placed e buffer length) :
    (∀ S, MarkedRun e (Session.opened e s buffer length baseAddress) S →
      Stamped e S.st ∧ ∀ p, S.st.pool ≠ 0 → Stamp e S.st p →
        lookupBufferPhysicalAddress S.st (p + e.hdr) =
          baseAddress + UInt32.ofNat (S.st.offsetAt e p)) ∧
    ∀ S S' n, Reachable e s buffer length baseAddress S → Stamped e S.st →
      Step e S (.alloc n) S' → (Stamped e S'.st ↔ Marked e S.st n) := by
  refine ⟨fun S h => ?_, fun S S' n h hst hstep => ?_⟩
  · refine ⟨?_, fun p hpool hstamp => ?_⟩
    · induction h with
      | refl => exact (Inv.opened hs hp).stamped_iff.2 (by simp)
      | tail hrun hstep ih =>
        obtain ⟨op, hmarks, hop⟩ := hstep
        obtain ⟨bs, I⟩ := (Inv.opened hs hp).run (MarkedRun.run hrun)
        exact I.stamped_step hmarks hop ih
    · have hreach : Reachable e s buffer length baseAddress S := h.run
      rw [← (hreach.samePool hs hp).2.2]
      exact hstamp.physical hpool
  · obtain ⟨bs, I⟩ := h.inv hs hp
    cases hstep with
    | alloc hn halloc => exact I.stamped_alloc hn halloc hst

/-- A request for 300 bytes is served with all of what the pool grows by. -/
theorem headers_stamped_zynq : ∃ S, MarkedRun Env.zynq
    (Session.opened Env.zynq (State.loaded fun _ => 0) 0x100000 640 0x1f410000) S ∧
      S.live = [(0x100014, 300)] ∧ Stamped Env.zynq S.st := by
  have h : (memmgrAlloc Env.zynq 100 (memmgrInit Env.zynq (State.loaded fun _ => 0) 0x100000 640
      0x1f410000) 300).map Prod.fst = some 0x100014 := by
    decide +kernel
  obtain ⟨⟨p, s'⟩, halloc, hp⟩ := Option.map_eq_some_iff.1 h
  dsimp only at hp
  subst hp
  have hmarks : Marks Env.zynq
      (Session.opened Env.zynq (State.loaded fun _ => 0) 0x100000 640 0x1f410000) (.alloc 300) :=
    fun _ _ => Or.inl (by decide)
  have hrun : MarkedRun Env.zynq _ _ := .single ⟨_, hmarks, .alloc (by decide) halloc⟩
  exact ⟨_, hrun, rfl, ((headers_stamped rfl (Or.inr zynq_placed)).1 _ hrun).1⟩

/-- **The header of a tail is not stamped**: a request for 16 bytes of a pool of zeros is served
with the last two quanta of sixteen. -/
theorem tail_not_stamped : ∃ S,
    Reachable Env.zynq (State.loaded fun _ => 0) 0x100000 640 0x1f410000 S ∧
      S.live = [(0x10012c, 16)] ∧ ¬Stamped Env.zynq S.st := by
  have h : (memmgrAlloc Env.zynq 100 (memmgrInit Env.zynq (State.loaded fun _ => 0) 0x100000 640
      0x1f410000) 16).map (fun r => (r.1, sweep (fun p => Env.zynq.ptrAdd p (r.2.size Env.zynq p))
        (r.2.pool + r.2.poolFreePos) (r.2.poolSize.toNat + 1) r.2.pool,
        r.2.nonceAt Env.zynq 0x100118)) =
      some (0x10012c, some ([0x100000, 0x100118], 0x100140), 0) := by
    decide +kernel
  obtain ⟨⟨p, s'⟩, halloc, hp⟩ := Option.map_eq_some_iff.1 h
  simp only [Prod.mk.injEq] at hp
  obtain ⟨rfl, hwalk, hnonce⟩ := hp
  refine ⟨_, .single ⟨_, trivial, .alloc (by decide) halloc⟩, rfl, ?_⟩
  rintro ⟨l, hl, hall⟩
  dsimp only [if_neg] at hl hall
  rw [hwalk] at hl
  obtain ⟨rfl, -⟩ := Prod.mk.inj (Option.some.inj hl)
  have hfirst := (hall 0x100118 (by simp)).first
  rw [hnonce] at hfirst
  exact absurd hfirst (by decide)

end Memmgr
end Zedboard
