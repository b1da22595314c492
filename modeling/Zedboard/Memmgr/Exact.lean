import Zedboard.Memmgr.Runs

/-!
# Requests of every size

`memmgr_alloc` computes its sizes in words: the request is rounded up to quanta, the quanta are
multiplied by the size of a header, and the product is added to `pool_free_pos`.  `Exact` is what it
does over the numbers: it hands out a block of exactly `exactQuantas` quanta, unless the heap is
`Short` of them.  `Sound` says which requests come out right, and `alloc_exact` that they do, in
every session that has been reached through such requests.

The requests that are not sound are those near the end of the address space, a negative `int` for
one: their sizes wrap to small ones.
-/

set_option autoImplicit false

namespace Zedboard
namespace Memmgr

variable {e : Env} {s s' : State} {S S' : Session} {bs : List Block} {n nq : Nat}

/-! ## What is asked of a request -/

/-- There is no free block that is large enough, and no room to make one. -/
def Short (e : Env) (s : State) (bs : List Block) (n : Nat) : Prop :=
  (∀ c ∈ bs, c.isFree = true → c.size < exactQuantas e n) ∧
    s.poolSize.toNat < s.poolFreePos + growth (exactQuantas e n) * e.hdr

/-- `p` is the payload of a block of exactly as many quanta as it takes, which lies in the pool. -/
def Delivers (e : Env) (s : State) (bs : List Block) (p n : Nat) : Prop :=
  ∃ b ∈ bs, b.req = some n ∧ b.size = exactQuantas e n ∧ p = b.addr + e.hdr ∧ s.pool ≤ b.addr ∧
    p + n ≤ b.addr + b.bytes e ∧ b.addr + b.bytes e ≤ s.pool + s.poolSize.toNat

/-- `memmgr_alloc` returns null and changes nothing when the heap is short of blocks, and otherwise
hands out a block of the exact size. -/
def Exact (e : Env) (S : Session) (bs : List Block) (n : Nat) : Prop :=
  ∀ fuel, 2 * S.st.poolSize.toNat + 2 ≤ fuel →
    ∃ p s', memmgrAlloc e fuel S.st n = some (p, s') ∧
      (Short e S.st bs n → p = 0 ∧ s'.poolFreePos = S.st.poolFreePos ∧
        WellFormed e ⟨s', S.live⟩ bs) ∧
      (¬Short e S.st bs n → p ≠ 0 ∧
        ∃ bs', WellFormed e ⟨s', (p, n) :: S.live⟩ bs' ∧ Delivers e S.st bs' p n)

/-- The two outcomes of a request, for the list of blocks: nothing has changed, or there is one more
held block. -/
def Answered (e : Env) (S : Session) (bs : List Block) (n p : Nat) (s' : State) : Prop :=
  (Short e S.st bs n ∧ p = 0 ∧ s'.poolFreePos = S.st.poolFreePos ∧ Accounted e ⟨s', S.live⟩ bs) ∨
  (¬Short e S.st bs n ∧ p ≠ 0 ∧
    ∃ bs', Accounted e ⟨s', (p, n) :: S.live⟩ bs' ∧ Delivers e S.st bs' p n)

/-- There is no free block: the free list has not been started, or is `base` alone. -/
def NoneFree (e : Env) (s : State) : Prop := s.freep = 0 ∨ s.next e e.base = e.base

/-- The request comes out right. -/
inductive Sound (e : Env) (s : State) (n : Nat) : Prop
  /-- No size overflows. -/
  | plain (h : s.poolFreePos + growth (exactQuantas e n) * e.hdr < e.range)
  /-- The rounding overflows, so that one quantum is looked for, but there is none and no room to
  make any. -/
  | round (h : e.range ≤ n + e.hdr - 1) (hfree : NoneFree e s)
      (hfull : s.poolSize.toNat < s.poolFreePos + minPoolAllocQuantas * e.hdr)
      (hsum : s.poolFreePos + minPoolAllocQuantas * e.hdr < e.range)
  /-- The rounding does not overflow, the product does, but there is no room for what is left of it
  either. -/
  | product (h : n + e.hdr - 1 < e.range) (hover : e.range ≤ growth (exactQuantas e n) * e.hdr)
      (hfull : s.poolSize.toNat <
        s.poolFreePos + (growth (exactQuantas e n) * e.hdr - e.range))
      (hsum : s.poolFreePos + (growth (exactQuantas e n) * e.hdr - e.range) < e.range)

/-! ## The sizes -/

/-- The least growth of the heap is far from the end of the address space. -/
theorem least_growth_lt (e : Env) : minPoolAllocQuantas * e.hdr < e.range := by
  rw [minPoolAllocQuantas, Env.hdr, Env.range, Env.word]
  cases e.abi <;> decide

/-- When the rounding overflows one quantum is left. -/
theorem quantas_round (hn : n < e.range) (h : e.range ≤ n + e.hdr - 1) : quantas e n = 1 := by
  have hhdr := e.hdr_pos
  have hrange : e.hdr ≤ e.range := by
    have := e.base_lt
    omega
  have hmod : e.ulong (n + e.hdr - 1) = n + e.hdr - 1 - e.range := by
    rw [Env.ulong, Nat.mod_eq_sub_mod h, Nat.mod_eq_of_lt (by omega)]
  rw [quantas, hmod, Nat.div_eq_of_lt (by omega)]

/-- The product is less than one header past the end of the address space. -/
theorem product_lt (h : n + e.hdr - 1 < e.range) :
    growth (exactQuantas e n) * e.hdr ≤ e.range + e.hdr := by
  have h1 := (exactQuantas_bounds e n).2
  have h2 := least_growth_lt e
  have h3 := e.hdr_pos
  rw [growth]
  split <;> omega

/-- When the product overflows it is that of the quanta themselves. -/
theorem growth_eq_of_over (hover : e.range ≤ growth nq * e.hdr) : growth nq = nq := by
  have h1 := least_growth_lt e
  rw [growth] at hover ⊢
  split
  · rename_i h
    rw [if_pos h] at hover
    omega
  · rfl

/-- A request for more bytes than the pool has finds the heap short of blocks. -/
theorem WellFormed.short_of_lt (W : WellFormed e S bs)
    (h : S.st.poolSize.toNat < exactQuantas e n * e.hdr) : Short e S.st bs n := by
  refine ⟨fun c hc _ => ?_, ?_⟩
  · have h1 := W.tiles.bounds hc
    have h2 := W.pos_le
    have h3 : c.bytes e = c.size * e.hdr := rfl
    exact Nat.lt_of_mul_lt_mul_right (a := e.hdr) (by omega)
  · have h1 := Nat.mul_le_mul_right e.hdr (le_growth (exactQuantas e n))
    omega

namespace Accounted

/-- The test for a free block finds out whether there is one. -/
theorem noneFree_iff (I : Accounted e S bs) : NoneFree e S.st ↔ frees bs = [] := by
  by_cases h0 : S.st.freep = 0
  · refine iff_of_true (Or.inl h0) ?_
    rcases I.healthy with ⟨-, -, rfl⟩ | L
    · rfl
    · by_contra hne
      have hbs : bs ≠ [] := by
        rintro rfl
        exact hne rfl
      obtain ⟨P, L⟩ := I.layout (Or.inl hbs)
      exact (L.ring_lt P L.freep_mem).2.ne' h0
  · obtain ⟨P, L⟩ := I.layout (Or.inr h0)
    have hring := L.ring
    have hnd := L.ring_nodup P
    cases hfrees : frees bs with
    | nil =>
      rw [hfrees] at hring
      exact iff_of_true (Or.inr (linked_cons_cons.1 hring).1) rfl
    | cons a l =>
      rw [hfrees] at hring hnd
      refine iff_of_false ?_ (List.cons_ne_nil a l)
      rintro (h | h)
      · exact h0 h
      · have h1 : S.st.next e e.base = a := (linked_cons_cons.1 hring).1
        have h2 : e.base = a := h.symm.trans h1
        exact (List.nodup_cons.1 hnd).1 (by rw [h2]; exact List.mem_cons_self)

/-- Without a free block no free block is too small. -/
theorem small_of_noneFree (I : Accounted e S bs) (h : NoneFree e S.st) :
    ∀ c ∈ bs, c.isFree = true → c.size < nq := by
  intro c hc hfree
  have hmem : c.addr ∈ frees bs := mem_frees.2 ⟨c, hc, hfree, rfl⟩
  rw [I.noneFree_iff.1 h] at hmem
  exact absurd hmem List.not_mem_nil

/-! ## Sound requests -/

/-- The block that has been carved is the one that is delivered. -/
theorem delivers (I : Accounted e S bs) (P : Sited e S.st.pool S.st.poolSize) {p : Nat}
    (hn : n + e.hdr - 1 < e.range) {l r : List Block} {b : Block}
    (hs : Served e S.st s' n p bs l b r) :
    Delivers e S.st (carve e n (quantas e n) l b r) p n := by
  obtain ⟨-, I'⟩ := I.served P hn hs
  have hmem : (⟨b.addr + (b.size - quantas e n) * e.hdr, quantas e n, some n⟩ : Block) ∈
      carve e n (quantas e n) l b r := by
    refine (mem_helds.1 ?_).1
    rw [helds_carve]
    simp
  have hheld := I'.room _ (mem_helds.2 ⟨hmem, rfl⟩)
  have hb := hs.layout.bounds hmem
  have hin := hs.layout.inside
  rw [hs.kept.pool_eq] at hb
  rw [hs.kept.pool_eq, hs.kept.poolSize_eq] at hin
  refine ⟨_, hmem, rfl, quantas_eq hn, hs.ptr, hb.1, ?_, ?_⟩
  · have hptr := hs.ptr
    dsimp only [Option.getD_some] at hheld ⊢
    omega
  · have hpos := hs.kept.pool_eq
    omega

/-- When a block is carved the heap was not short of blocks. -/
theorem not_short (hn : n + e.hdr - 1 < e.range) {p : Nat} {l r : List Block} {b : Block}
    (hs : Served e s s' n p bs l b r) : ¬Short e s bs n := by
  rintro ⟨hsmall, hfull⟩
  have hready := hs.ready
  have henough := hs.enough
  rw [quantas_eq hn] at hready henough
  rcases hready with ⟨heq, -⟩ | ⟨-, hroom, -⟩
  · have h1 := hsmall b (by rw [← heq]; simp) hs.free
    omega
  · rw [Roomy] at hroom
    omega

/-- **A sound request comes out right**: either the heap is short of blocks and stays as it is, or a
block of the exact size is handed out. -/
theorem alloc_sound (I : Accounted e S bs) (P : Sited e S.st.pool S.st.poolSize) (hn : n < e.range)
    (h : Sound e S.st n) {fuel : Nat} (hf : 2 * S.st.poolSize.toNat + 2 ≤ fuel) :
    ∃ p s', memmgrAlloc e fuel S.st n = some (p, s') ∧ Kept e bs S.st s' ∧
      Answered e S bs n p s' := by
  have hfits := P.fits
  have hbounds := exactQuantas_bounds e n
  -- the two ways in which an overflow is harmless
  have hrefused : Short e S.st bs n → (∀ c ∈ bs, c.isFree = true → c.size < quantas e n) →
      ¬Admits e S.st (quantas e n) → ∃ p s', memmgrAlloc e fuel S.st n = some (p, s') ∧
        Kept e bs S.st s' ∧ Answered e S bs n p s' := by
    intro hshort hsmall hno
    have hfuel : S.st.poolSize.toNat < fuel := by omega
    obtain ⟨s', halloc, L, K, hpos⟩ :=
      I.healthy.memmgrAlloc_refused P I.session hsmall hno hfuel
    exact ⟨0, s', halloc, K, Or.inl ⟨hshort, rfl, hpos, I.refused P L K⟩⟩
  cases h with
  | plain h =>
    have hround := round_lt h
    rcases I.healthy.memmgrAlloc n fuel P I.session (quantas_no_wrap h) hf with
      ⟨p, s', l, b, r, halloc, hs⟩ | ⟨s', halloc, hs⟩
    · obtain ⟨hp, I'⟩ := I.served P hround hs
      exact ⟨p, s', halloc, hs.kept, Or.inr ⟨not_short hround hs, hp, _, I',
        I.delivers P hround hs⟩⟩
    · have hsmall := hs.small
      have hfull := hs.full
      rw [quantas_eq hround] at hsmall hfull
      exact ⟨0, s', halloc, hs.kept, Or.inl ⟨⟨hsmall, Nat.lt_of_not_le hfull⟩, rfl, hs.pos,
        I.refused P hs.layout hs.kept⟩⟩
  | round h hfree hfull hsum =>
    have hone := quantas_round hn h
    have hshort : Short e S.st bs n := I.wellFormed.short_of_lt (by omega)
    refine hrefused hshort (I.small_of_noneFree hfree) ?_
    rw [hone]
    exact fun hadm => Nat.not_le_of_lt hfull ((admits_iff hsum).1 hadm)
  | product h hover hfull hsum =>
    have hgrowth := growth_eq_of_over hover
    have hlt := product_lt h
    have hbase := e.base_lt
    have htotal : e.ulong (growth (exactQuantas e n) * e.hdr) =
        growth (exactQuantas e n) * e.hdr - e.range := by
      rw [Env.ulong, Nat.mod_eq_sub_mod hover, Nat.mod_eq_of_lt (by omega)]
    have hshort : Short e S.st bs n := I.wellFormed.short_of_lt (by rw [← hgrowth]; omega)
    refine hrefused hshort (by rw [quantas_eq h]; exact hshort.1) ?_
    rw [quantas_eq h, Admits, htotal, Env.ulong_eq hsum]
    exact Nat.not_le_of_lt hfull

theorem exact_of_sound (I : Accounted e S bs) (P : Sited e S.st.pool S.st.poolSize)
    (hn : n < e.range) (h : Sound e S.st n) : Exact e S bs n := by
  intro fuel hf
  obtain ⟨p, s', halloc, -, ⟨hshort, hp, hpos, I'⟩ | ⟨hlong, hp, bs', I', hdel⟩⟩ :=
    I.alloc_sound P hn h hf
  · exact ⟨p, s', halloc, fun _ => ⟨hp, hpos, I'.wellFormed⟩, fun hlong => absurd hshort hlong⟩
  · exact ⟨p, s', halloc, fun hshort => absurd hshort hlong,
      fun _ => ⟨hp, bs', I'.wellFormed, hdel⟩⟩

end Accounted

/-! ## Sessions with requests of every size -/

/-- One action of a client who may ask for any number of bytes, as long as the request is sound. -/
inductive SoundStep (e : Env) : Session → Op → Session → Prop
  | alloc {S : Session} {n p fuel : Nat} {s' : State} (hn : n < e.range) (hsound : Sound e S.st n)
      (h : memmgrAlloc e fuel S.st n = some (p, s')) :
      SoundStep e S (.alloc n) ⟨s', if p = 0 then S.live else (p, n) :: S.live⟩
  | other {S S' : Session} {op : Op} (hop : ∀ n, op ≠ .alloc n) (h : Step e S op S') :
      SoundStep e S op S'

/-- The session can be reached from `memmgr_init` by such actions. -/
def SoundlyReachable (e : Env) (s : State) (buffer : Nat) (length baseAddress : UInt32) :
    Session → Prop :=
  Relation.ReflTransGen (fun S S' => ∃ op, SoundStep e S op S')
    (Session.opened e s buffer length baseAddress)

/-- **One action keeps the invariant**, and the pool. -/
theorem Accounted.soundStep (I : Accounted e S bs) (P : Sited e S.st.pool S.st.poolSize) {op : Op}
    (h : SoundStep e S op S') :
    (∃ bs', Accounted e S' bs') ∧ S'.st.pool = S.st.pool ∧ S'.st.poolSize = S.st.poolSize := by
  cases h with
  | @alloc n p fuel s' hn hsound halloc =>
    obtain ⟨p', s'', halloc', K, hset⟩ := I.alloc_sound P hn hsound
      (show 2 * S.st.poolSize.toNat + 2 ≤ fuel + (2 * S.st.poolSize.toNat + 2) by omega)
    obtain ⟨rfl, rfl⟩ :=
      Prod.mk.inj (Option.some.inj ((memmgrAlloc_mono halloc (by omega)).symm.trans halloc'))
    refine ⟨?_, K.pool_eq, K.poolSize_eq⟩
    rcases hset with ⟨-, hp, -, I'⟩ | ⟨-, hp, bs', I', -⟩
    · rw [if_pos hp]
      exact ⟨bs, I'⟩
    · rw [if_neg hp]
      exact ⟨bs', I'⟩
  | other hop h =>
    cases h with
    | alloc => exact absurd rfl (hop _)
    | @free p n fuel s' hp hfree =>
      obtain ⟨s'', bs', hfree', I', K, -⟩ :=
        I.free (fuel + (S.st.poolSize.toNat + 1)) hp (by omega)
      obtain rfl := Option.some.inj ((memmgrFree_mono hfree (by omega)).symm.trans hfree')
      exact ⟨⟨bs', I'⟩, K.pool_eq, K.poolSize_eq⟩
    | store ha => exact ⟨⟨bs, I.store _ ha⟩, rfl, rfl⟩

/-- **So does a whole run.** -/
theorem SoundlyReachable.accounted {buffer : Nat} {length baseAddress : UInt32}
    (hs : s.session = 0) (P : Sited e buffer length)
    (h : SoundlyReachable e s buffer length baseAddress S) :
    (∃ bs, Accounted e S bs) ∧ S.st.pool = buffer ∧ S.st.poolSize = length := by
  induction h with
  | refl =>
    refine ⟨⟨[], Accounted.opened hs (Or.inr P)⟩, ?_⟩
    rw [Session.opened, memmgrInit, if_pos hs]
    exact ⟨rfl, rfl⟩
  | tail _ hstep ih =>
    obtain ⟨⟨bs, I⟩, hpool, hsize⟩ := ih
    obtain ⟨op, hop⟩ := hstep
    obtain ⟨I', hpool', hsize'⟩ := I.soundStep (by rw [hpool, hsize]; exact P) hop
    exact ⟨I', hpool'.trans hpool, hsize'.trans hsize⟩

/-- Requests for no more than the pool has are sound, if the pool is small enough. -/
theorem Reachable.soundly {buffer : Nat} {length baseAddress : UInt32} (hs : s.session = 0)
    (P : Placed e buffer length) (h : Reachable e s buffer length baseAddress S) :
    SoundlyReachable e s buffer length baseAddress S := by
  induction h with
  | refl => exact .refl
  | tail hrun hstep ih =>
    obtain ⟨op, -, hop⟩ := hstep
    refine .tail ih ⟨op, ?_⟩
    by_cases halloc : ∃ n, op = .alloc n
    · obtain ⟨n, rfl⟩ := halloc
      obtain ⟨bs, I⟩ := Reachable.inv hs (Or.inr P) hrun
      obtain ⟨hpool, hsize, -⟩ := Reachable.samePool hs (Or.inr P) hrun
      cases hop with
      | alloc hn h =>
        have hno := I.no_wrap (by rw [hpool, hsize]; exact P.toSited) hn
        have := (exactQuantas_bounds e n).1
        have := Nat.mul_le_mul_right e.hdr (le_growth (exactQuantas e n))
        exact .alloc (by omega) (.plain hno) h
    · exact .other (fun n hn => halloc ⟨n, hn⟩) hop

/-! ## Where `pool_free_pos` goes

In a heap that an overflow has spoilt little can be said about what `memmgr_alloc` returns, but
`pool_free_pos` only ever moves by the total that has been asked for. -/

theorem memmgrFree_statics {fuel ap : Nat} (h : memmgrFree e fuel s ap = some s') :
    s'.poolFreePos = s.poolFreePos ∧ s'.poolSize = s.poolSize := by
  rw [memmgrFree] at h
  split at h
  · obtain rfl := Option.some.inj h
    exact ⟨rfl, rfl⟩
  · split at h
    · obtain rfl := Option.some.inj h
      exact ⟨rfl, rfl⟩
    · dsimp only at h
      split at h
      · exact absurd h (by simp)
      · obtain rfl := Option.some.inj h
        dsimp only
        split <;> split <;> exact ⟨rfl, rfl⟩

/-- The total that `get_mem_from_pool` asks for. -/
def total (e : Env) (nq : Nat) : Nat := e.ulong (growth nq * e.hdr)

/-- When the test succeeds `pool_free_pos` moves. -/
theorem getMemFromPool_admitted {fuel q : Nat} (hpool : s.pool ≠ 0) (hadm : Admits e s nq)
    (h : getMemFromPool e fuel s nq = some (q, s')) :
    s'.poolFreePos = e.ulong (s.poolFreePos + total e nq) ∧ s'.poolSize = s.poolSize := by
  rw [getMemFromPool, if_neg hpool] at h
  have hgrowth : (if nq < minPoolAllocQuantas then minPoolAllocQuantas else nq) = growth nq := rfl
  rw [hgrowth] at h
  dsimp only at h
  rw [if_pos (show e.ulong (s.poolFreePos + e.ulong (growth nq * e.hdr)) ≤ s.poolSize.toNat from
    hadm)] at h
  split at h
  · exact absurd h (by simp)
  · rename_i s₁ hfree
    obtain ⟨hpos, hsize⟩ := memmgrFree_statics hfree
    obtain ⟨-, rfl⟩ := Prod.mk.inj (Option.some.inj h)
    exact ⟨by dsimp only; rw [hpos]; rfl, hsize⟩

theorem take_statics (prevp p : Nat) :
    (take e n nq s prevp p).2.poolFreePos = s.poolFreePos ∧
      (take e n nq s prevp p).2.poolSize = s.poolSize := by
  rw [take]
  dsimp only
  split <;> split <;> exact ⟨rfl, rfl⟩

/-- What is kept whenever `pool_free_pos` moves by the total is kept by the search. -/
theorem allocLoop_pos {J : Nat → Prop} {z : UInt32} {scanFuel : Nat}
    (hJ : ∀ y, J y → e.ulong (y + total e nq) ≤ z.toNat → J (e.ulong (y + total e nq))) :
    ∀ {fuel : Nat} {s : State} {prevp p : Nat} {r : Nat × State}, s.poolSize = z →
      J s.poolFreePos → allocLoop e scanFuel n nq fuel s prevp p = some r → J r.2.poolFreePos
  | 0, _, _, _, _, _, _, h => by simp [allocLoop] at h
  | fuel + 1, s, prevp, p, r, hz, hs, h => by
    rw [allocLoop] at h
    split at h
    · obtain rfl := Option.some.inj h
      rwa [(take_statics prevp p).1]
    · split at h
      · split at h
        · exact absurd h (by simp)
        · rename_i q s₁ hget
          have hs₁ : s₁.poolSize = z ∧ J s₁.poolFreePos := by
            by_cases hpool : s.pool = 0
            · rw [getMemFromPool, if_pos hpool] at hget
              obtain ⟨-, rfl⟩ := Prod.mk.inj (Option.some.inj hget)
              exact ⟨hz, hs⟩
            · by_cases hadm : Admits e s nq
              · obtain ⟨hpos, hsize⟩ := getMemFromPool_admitted hpool hadm hget
                rw [hpos]
                exact ⟨hsize.trans hz, hJ _ hs (by rw [← hz]; exact hadm)⟩
              · rw [getMemFromPool_refused scanFuel hpool hadm] at hget
                obtain ⟨-, rfl⟩ := Prod.mk.inj (Option.some.inj hget)
                exact ⟨hz, hs⟩
          split at h
          · obtain rfl := Option.some.inj h
            exact hs₁.2
          · exact allocLoop_pos hJ hs₁.1 hs₁.2 h
      · exact allocLoop_pos hJ hz hs h

/-- When no free block is large enough and the test succeeds, `pool_free_pos` has moved. -/
theorem Accounted.pos_of_admitted (I : Accounted e S bs) (P : Sited e S.st.pool S.st.poolSize)
    {J : Nat → Prop} {fuel p : Nat} (hf : S.st.poolSize.toNat < fuel)
    (hsmall : ∀ c ∈ bs, c.isFree = true → c.size < quantas e n)
    (hadm : Admits e S.st (quantas e n))
    (hJ : ∀ y, J y → e.ulong (y + total e (quantas e n)) ≤ S.st.poolSize.toNat →
      J (e.ulong (y + total e (quantas e n))))
    (hmoved : J (e.ulong (S.st.poolFreePos + total e (quantas e n))))
    (h : memmgrAlloc e fuel S.st n = some (p, s')) : J s'.poolFreePos := by
  obtain ⟨L, K, hpos, -⟩ := I.healthy.start P
  have hpool := P.pool_pos
  have hlen := (length_frees_le bs).trans L.length_le
  rw [K.poolSize_eq] at hlen
  obtain ⟨f, rfl⟩ : ∃ f, fuel = f + 1 + (frees bs).length :=
    ⟨fuel - 1 - (frees bs).length, by omega⟩
  rw [memmgrAlloc, if_neg hpool.ne', if_neg I.session] at h
  dsimp only at h
  rw [L.allocLoop_missed n f _ (K.sited P) quantas_pos hsmall] at h
  split at h
  · exact absurd h (by simp)
  · rename_i q s₁ hget
    have hadm' : Admits e (startList e S.st) (quantas e n) := by
      rwa [Admits, hpos, K.poolSize_eq]
    obtain ⟨hpos₁, hsize₁⟩ := getMemFromPool_admitted (by rw [K.pool_eq]; exact hpool.ne')
      hadm' hget
    rw [hpos] at hpos₁
    have hs₁ : J s₁.poolFreePos := by rwa [hpos₁]
    split at h
    · obtain ⟨-, rfl⟩ := Prod.mk.inj (Option.some.inj h)
      exact hs₁
    · exact allocLoop_pos (z := S.st.poolSize) hJ (hsize₁.trans K.poolSize_eq) hs₁ h

/-! ## Requests that are not sound -/

namespace Accounted

/-- When the rounding overflows, a block of one quantum is handed out if there is one, or room for
it. -/
theorem sound_of_round (I : Accounted e S bs) (P : Placed e S.st.pool S.st.poolSize)
    (hn : n < e.range) (hround : e.range ≤ n + e.hdr - 1) (h : Exact e S bs n) :
    Sound e S.st n := by
  have hpos := I.healthy.pos_le
  have hroom := P.room
  have hfits := P.fits
  have hone := quantas_round hn hround
  have hbounds := (exactQuantas_bounds e n).1
  have hsum : S.st.poolFreePos + minPoolAllocQuantas * e.hdr < e.range := by
    rw [minPoolAllocQuantas]
    omega
  have hno : S.st.poolFreePos + growth (quantas e n) * e.hdr < e.range := by
    rw [hone]
    exact hsum
  have hshort : Short e S.st bs n := I.wellFormed.short_of_lt (by omega)
  obtain ⟨p, s', halloc, hnull, -⟩ := h _ le_rfl
  rcases I.healthy.memmgrAlloc n _ P.toSited I.session hno le_rfl with
    ⟨q, s₁, l, b, r, halloc₁, hs⟩ | ⟨s₁, -, hs⟩
  · obtain ⟨rfl, -⟩ := Prod.mk.inj (Option.some.inj (halloc.symm.trans halloc₁))
    have hp := (hnull hshort).1
    have hptr := hs.ptr
    have hhdr := e.hdr_pos
    omega
  · have hsmall := hs.small
    have hfull := hs.full
    rw [hone] at hsmall hfull
    refine .round hround (I.noneFree_iff.2 ?_) (Nat.lt_of_not_le hfull) hsum
    refine List.eq_nil_iff_forall_not_mem.2 fun a ha => ?_
    obtain ⟨c, hc, hfree, -⟩ := mem_frees.1 ha
    have h1 := hsmall c hc hfree
    have h2 : 0 < c.size := Nat.pos_of_mul_pos_right (I.tiles.1.bounds hc).2.1
    omega

/-- When the product overflows, `pool_free_pos` goes up if what is left of it fits. -/
theorem sound_of_product (I : Accounted e S bs) (P : Placed e S.st.pool S.st.poolSize)
    (hround : n + e.hdr - 1 < e.range) (hover : e.range < growth (exactQuantas e n) * e.hdr)
    (h : Exact e S bs n) : Sound e S.st n := by
  have hpos := I.healthy.pos_le
  have hroom := P.room
  have hfits := P.fits
  have hgrowth := growth_eq_of_over hover.le
  have hlt := product_lt hround
  have hbase := e.base_lt
  have htotal : total e (quantas e n) = growth (exactQuantas e n) * e.hdr - e.range := by
    rw [total, quantas_eq hround, Env.ulong, Nat.mod_eq_sub_mod hover.le,
      Nat.mod_eq_of_lt (by omega)]
  have hshort : Short e S.st bs n := I.wellFormed.short_of_lt (by rw [← hgrowth]; omega)
  obtain ⟨p, s', halloc, hnull, -⟩ := h _ le_rfl
  have hkept := (hnull hshort).2.1
  refine .product hround hover.le (Nat.lt_of_not_le fun hfits' => ?_) (by omega)
  have hsum : e.ulong (S.st.poolFreePos + total e (quantas e n)) =
      S.st.poolFreePos + (growth (exactQuantas e n) * e.hdr - e.range) := by
    rw [htotal, Env.ulong_eq (by omega)]
  have hmoved := I.pos_of_admitted (J := fun y => S.st.poolFreePos < y ∧ y ≤ S.st.poolSize.toNat)
    P.toSited (by omega) (by rw [quantas_eq hround]; exact hshort.1)
    (by rw [Admits, ← total, hsum]; exact hfits')
    (fun y hy hle => ?_) (by rw [hsum]; omega) halloc
  · omega
  · rw [htotal, Env.ulong_eq (by omega)] at hle ⊢
    omega

/-- When only the sum overflows, `pool_free_pos` goes down. -/
theorem not_exact_of_sum (I : Accounted e S bs) (P : Placed e S.st.pool S.st.poolSize)
    (hround : n + e.hdr - 1 < e.range) (hprod : growth (exactQuantas e n) * e.hdr < e.range)
    (hover : e.range ≤ S.st.poolFreePos + growth (exactQuantas e n) * e.hdr) :
    ¬Exact e S bs n := by
  intro h
  have hpos := I.healthy.pos_le
  have hroom := P.room
  have hgrowth : growth (exactQuantas e n) = exactQuantas e n := by
    rw [growth, minPoolAllocQuantas] at hover ⊢
    split
    · rename_i hsmall
      rw [if_pos hsmall] at hover
      omega
    · rfl
  have htotal : total e (quantas e n) = growth (exactQuantas e n) * e.hdr := by
    rw [total, quantas_eq hround, Env.ulong_eq hprod]
  have hshort : Short e S.st bs n := I.wellFormed.short_of_lt (by rw [← hgrowth]; omega)
  obtain ⟨p, s', halloc, hnull, -⟩ := h _ le_rfl
  have hkept := (hnull hshort).2.1
  have hwrap : ∀ y, y ≤ S.st.poolFreePos → e.range ≤ y + total e (quantas e n) →
      e.ulong (y + total e (quantas e n)) = y + total e (quantas e n) - e.range := by
    intro y hy hle
    rw [Env.ulong, Nat.mod_eq_sub_mod hle, Nat.mod_eq_of_lt (by omega)]
  have hsum := hwrap _ le_rfl (by omega)
  have hmoved := I.pos_of_admitted (J := fun y => y < S.st.poolFreePos) P.toSited (by omega)
    (by rw [quantas_eq hround]; exact hshort.1) (by rw [Admits, ← total, hsum]; omega)
    (fun y hy hle => ?_) (by omega) halloc
  · omega
  · rcases Nat.lt_or_ge (y + total e (quantas e n)) e.range with hlt | hge
    · rw [Env.ulong_eq hlt] at hle
      omega
    · rw [hwrap y (by omega) hge]
      omega

/-- **A request that comes out right is sound.** -/
theorem sound_of_exact (I : Accounted e S bs) (P : Placed e S.st.pool S.st.poolSize)
    (hn : n < e.range) (hne : growth (exactQuantas e n) * e.hdr ≠ e.range) (h : Exact e S bs n) :
    Sound e S.st n := by
  rcases Nat.lt_or_ge (n + e.hdr - 1) e.range with hround | hround
  · rcases Nat.lt_or_gt_of_ne hne with hprod | hprod
    · refine .plain (Nat.lt_of_not_le fun hover => ?_)
      exact I.not_exact_of_sum P hround hprod hover h
    · exact I.sound_of_product P hround hprod h
  · exact I.sound_of_round P hn hround h

end Accounted

/-! ## The exact condition -/

/-- **`memmgr_alloc` serves a request exactly when it should if the request is sound**, in every
session that has been reached through sound requests.  Where the pool is small enough for two of
them to fit into the address space it is so only then, but for the size whose product is exactly the
address space, for which nothing is said. -/
theorem alloc_exact {buffer : Nat} {length baseAddress : UInt32} (hs : s.session = 0)
    (P : Sited e buffer length) (h : SoundlyReachable e s buffer length baseAddress S)
    (hn : n < e.range) :
    ∃ bs, WellFormed e S bs ∧ (Sound e S.st n → Exact e S bs n) ∧
      (Placed e buffer length → growth (exactQuantas e n) * e.hdr ≠ e.range →
        Exact e S bs n → Sound e S.st n) := by
  obtain ⟨⟨bs, I⟩, hpool, hsize⟩ := h.accounted hs P
  rw [← hpool, ← hsize] at P
  refine ⟨bs, I.wellFormed, fun hsound => I.exact_of_sound P hn hsound, fun Pl hne hexact => ?_⟩
  rw [← hpool, ← hsize] at Pl
  exact I.sound_of_exact Pl hn hne hexact

theorem alloc_exact_zynq : ∃ S bs,
    SoundlyReachable Env.zynq (State.loaded fun _ => 0) 0x100000 640 0x1f410000 S ∧
      S.live = [(0x1000f0, 40)] ∧ WellFormed Env.zynq S bs ∧ Exact Env.zynq S bs 100 := by
  obtain ⟨S, hS, hlive⟩ := zynq_reachable
  have hsize := hS.poolSize_eq rfl (Or.inr zynq_placed)
  have hsound := hS.soundly rfl zynq_placed
  obtain ⟨bs, W, hexact, -⟩ :=
    alloc_exact rfl zynq_placed.toSited hsound (show 100 < Env.zynq.range by decide)
  have hpos : S.st.poolFreePos ≤ 640 := by
    have h := W.pos_le
    rwa [hsize] at h
  have htotal : growth (exactQuantas Env.zynq 100) * Env.zynq.hdr + 640 < Env.zynq.range := by
    decide
  exact ⟨S, bs, hsound, hlive, W, hexact (.plain (by omega))⟩

/-- **A request for `-1` bytes is served**: in a session that has just been opened a block is handed
out for it that consists of its header only. -/
theorem alloc_overflows : ∃ S,
    Reachable Env.zynq (State.loaded fun _ => 0) 0x100000 640 0x1f410000 S ∧
      2 ^ 32 - 1 < Env.zynq.range ∧ ∀ bs, WellFormed Env.zynq S bs →
        ¬Exact Env.zynq S bs (2 ^ 32 - 1) := by
  refine ⟨_, .refl, by decide, fun bs W hexact => ?_⟩
  have hsize : (Session.opened Env.zynq (State.loaded fun _ => 0) 0x100000 640
      0x1f410000).st.poolSize = 640 := rfl
  have halloc : (memmgrAlloc Env.zynq 1282 (memmgrInit Env.zynq (State.loaded fun _ => 0) 0x100000
      640 0x1f410000) (2 ^ 32 - 1)).map Prod.fst = some 0x100140 := by
    decide +kernel
  have hshort := W.short_of_lt (n := 2 ^ 32 - 1) (by rw [hsize]; decide)
  obtain ⟨p, s', h, hnull, -⟩ := hexact 1282 (by rw [hsize]; decide)
  have h' : memmgrAlloc Env.zynq 1282 (memmgrInit Env.zynq (State.loaded fun _ => 0) 0x100000 640
      0x1f410000) (2 ^ 32 - 1) = some (p, s') := h
  rw [h', (hnull hshort).1] at halloc
  simp at halloc

end Memmgr
end Zedboard
