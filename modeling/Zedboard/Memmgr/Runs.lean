import Zedboard.Memmgr.Alloc
import Mathlib.Logic.Relation

/-!
# Whole runs of the allocator

A session is the state of the allocator together with a ledger of what its clients hold.  The
clients allocate, free what they hold, and store bytes into their own payloads or into memory that
is none of the allocator's; `Step` is one such action.

`Inv` ties the ledger to the list of blocks.  One step keeps it (`Inv.step`), so it holds in every
session that can be reached from `memmgr_init`, and the two main results are read off it:

* `heap_wellformed`: the shape of the heap, and that every operation comes back;
* `client_isolation`: a payload belongs to its holder alone.

Both take `base` to lie apart from the pool, which it need not do: where it begins right behind the
pool, `memmgr_free` takes it for the neighbour of the last block and loses it (`behind_run`).
-/

set_option autoImplicit false

namespace Zedboard
namespace Memmgr

/-! ## Sessions -/

/-- The state of the allocator and the ledger of its clients: each pointer they hold, with the
number of bytes they asked for. -/
structure Session where
  st : State
  live : List (Nat × Nat)

/-- What a client can do. -/
inductive Op
  | alloc (nbytes : Nat)
  | free (ap : Nat)
  | store (a : Nat) (v : UInt8)

namespace Session

variable (e : Env) (S : Session)

/-- The address lies in a payload that a client holds. -/
def Held (a : Nat) : Prop := ∃ p n, (p, n) ∈ S.live ∧ p ≤ a ∧ a < p + n

/-- The address lies neither in the pool nor in `base`. -/
def Foreign (a : Nat) : Prop :=
  (a < e.base ∨ e.base + e.hdr ≤ a) ∧ (a < S.st.pool ∨ S.st.pool + S.st.poolSize.toNat ≤ a)

/-- The session after `memmgr_init`. -/
def opened (s : State) (buffer : Nat) (length baseAddress : UInt32) : Session :=
  ⟨memmgrInit e s buffer length baseAddress, []⟩

end Session

/-- One action of a client. -/
inductive Step (e : Env) : Session → Op → Session → Prop
  | alloc {S : Session} {n p fuel : Nat} {s' : State} (hn : n ≤ S.st.poolSize.toNat)
      (h : memmgrAlloc e fuel S.st n = some (p, s')) :
      Step e S (.alloc n) ⟨s', if p = 0 then S.live else (p, n) :: S.live⟩
  | free {S : Session} {p n fuel : Nat} {s' : State} (hp : (p, n) ∈ S.live)
      (h : memmgrFree e fuel S.st p = some s') : Step e S (.free p) ⟨s', S.live.erase (p, n)⟩
  | store {S : Session} {a : Nat} {v : UInt8} (h : S.Held a ∨ S.Foreign e a) :
      Step e S (.store a v) ⟨{ S.st with mem := Function.update S.st.mem a v }, S.live⟩

/-- Any number of actions of the kind `Q`. -/
def Run (e : Env) (Q : Op → Prop) : Session → Session → Prop :=
  Relation.ReflTransGen fun S S' => ∃ op, Q op ∧ Step e S op S'

/-- The session can be reached from `memmgr_init`. -/
def Reachable (e : Env) (s : State) (buffer : Nat) (length baseAddress : UInt32) :
    Session → Prop :=
  Run e (fun _ => True) (Session.opened e s buffer length baseAddress)

/-! ## The invariant -/

/-- The pointers that are held according to the list of blocks. -/
def holdings (e : Env) (bs : List Block) : List (Nat × Nat) :=
  (helds bs).map fun b => (b.addr + e.hdr, b.req.getD 0)

theorem mem_holdings {e : Env} {bs : List Block} {p n : Nat} : (p, n) ∈ holdings e bs ↔
    ∃ b ∈ bs, b.req = some n ∧ b.addr + e.hdr = p := by
  simp only [holdings, List.mem_map, mem_helds, Prod.mk.injEq, Block.isFree]
  constructor
  · rintro ⟨b, ⟨hb, hheld⟩, hp, hn⟩
    cases hreq : b.req with
    | none => rw [hreq] at hheld; exact Bool.noConfusion hheld
    | some k => exact ⟨b, hb, by rw [hreq] at hn; simpa [hreq] using hn, hp⟩
  · rintro ⟨b, hb, hreq, hp⟩
    exact ⟨b, ⟨hb, by rw [hreq]; rfl⟩, hp, by rw [hreq]; rfl⟩

/-- The session is the image of the list of blocks `bs`, and the clients hold what it says. -/
structure Accounted (e : Env) (S : Session) (bs : List Block) : Prop where
  /-- There is no pool, and then there are no blocks, or the pool is well placed. -/
  place : (S.st.pool = 0 ∧ S.st.freep = 0 ∧ S.st.poolFreePos = 0 ∧ bs = []) ∨
    Sited e S.st.pool S.st.poolSize
  session : S.st.session ≠ 0
  healthy : Healthy e S.st bs
  ledger : (holdings e bs).Perm S.live
  /-- A held block has room for the bytes its holder asked for. -/
  room : ∀ b ∈ helds bs, b.req.getD 0 + e.hdr ≤ b.bytes e

namespace Accounted

variable {e : Env} {S S' : Session} {bs : List Block} {p n fuel : Nat}

/-- With a pool and a block, or a started free list, there is a layout. -/
theorem layout (I : Accounted e S bs) (h : bs ≠ [] ∨ S.st.freep ≠ 0) :
    Sited e S.st.pool S.st.poolSize ∧ Layout e S.st (S.st.pool + S.st.poolFreePos) bs := by
  refine ⟨I.place.resolve_left ?_, I.healthy.resolve_left ?_⟩
  · rintro ⟨-, h0, -, rfl⟩
    exact h.elim (fun h => h rfl) fun h => h h0
  · rintro ⟨h0, -, rfl⟩
    exact h.elim (fun h => h rfl) fun h => h h0

/-- What a client holds is the payload of a block. -/
theorem exists_block (I : Accounted e S bs) (hp : (p, n) ∈ S.live) :
    ∃ l b r, bs = l ++ b :: r ∧ b.req = some n ∧ b.addr + e.hdr = p ∧
      p + n ≤ b.addr + b.bytes e := by
  obtain ⟨b, hb, hreq, hbp⟩ := mem_holdings.1 (I.ledger.mem_iff.2 hp)
  obtain ⟨l, r, rfl⟩ := List.append_of_mem hb
  have hheld : b.isFree = false := by rw [Block.isFree, hreq]; rfl
  have h1 := I.room b (mem_helds.2 ⟨by simp, hheld⟩)
  rw [hreq, Option.getD_some] at h1
  exact ⟨l, b, r, rfl, hreq, hbp, by omega⟩

/-- An opened session has no blocks. -/
theorem opened {s : State} {buffer : Nat} {length baseAddress : UInt32} (hs : s.session = 0)
    (hp : buffer = 0 ∨ Sited e buffer length) :
    Accounted e (Session.opened e s buffer length baseAddress) [] := by
  have h : memmgrInit e s buffer length baseAddress =
      { (memmgrInit e s buffer length baseAddress) with
        freep := 0, poolFreePos := 0, pool := buffer, poolSize := length, session := 1 } := by
    rw [memmgrInit, if_pos hs]
  rw [Session.opened, h]
  refine ⟨?_, Nat.one_ne_zero, Or.inl ⟨rfl, rfl, rfl⟩, List.Perm.refl _, by simp⟩
  exact hp.imp (fun h0 => ⟨h0, rfl, rfl, rfl⟩) id

/-- Clients that keep off the headers do not disturb the heap. -/
theorem of_mem (I : Accounted e S bs) {m : Mem}
    (hm : ∀ q ∈ e.base :: bs.map Block.addr, ∀ x, q ≤ x → x < q + e.hdr → m x = S.st.mem x) :
    Accounted e ⟨{ S.st with mem := m }, S.live⟩ bs := by
  refine ⟨I.place, I.session, ?_, I.ledger, I.room⟩
  rcases I.healthy with h | L
  · exact Or.inl h
  · have hnext : ∀ q ∈ e.base :: bs.map Block.addr,
        ({ S.st with mem := m } : State).next e q = S.st.next e q :=
      fun q hq => next_congr (hm q hq)
    have hsize : ∀ q ∈ e.base :: bs.map Block.addr,
        ({ S.st with mem := m } : State).size e q = S.st.size e q :=
      fun q hq => size_congr (hm q hq)
    refine Or.inr ⟨L.tiles, L.inside, fun b hb => ?_, ?_, ?_, L.freep_mem, L.coalesced⟩
    · rw [hsize _ (List.mem_cons_of_mem _ (List.mem_map_of_mem hb)), L.sizes b hb]
    · rw [hsize _ (by simp), L.base_size]
    · exact L.ring.congr fun q hq => hnext q (Layout.mem_heads_of_ring hq)

/-- A block that has been carved belongs to the client. -/
theorem served (I : Accounted e S bs) (P : Sited e S.st.pool S.st.poolSize)
    (hn : n + e.hdr - 1 < e.range) {s' : State} {l r : List Block} {b : Block}
    (hs : Served e S.st s' n p bs l b r) :
    p ≠ 0 ∧ Accounted e ⟨s', (p, n) :: S.live⟩ (carve e n (quantas e n) l b r) := by
  have hsess : s'.session ≠ 0 := by
    rw [hs.kept.statics]
    exact I.session
  have hp : p ≠ 0 := by
    rw [hs.ptr]
    have := e.hdr_pos
    omega
  have hheld : helds (l ++ b :: r) = helds bs := by
    rcases hs.ready with ⟨h, -⟩ | ⟨-, -, h, -⟩
    · rw [h]
    · rw [h, helds_grow]
  have hbs : helds bs = helds l ++ helds r := by
    rw [← hheld, helds_append, helds_cons_free hs.free]
  refine ⟨hp, Or.inr (hs.kept.sited P), hsess, Or.inr hs.layout, ?_, ?_⟩
  · rw [holdings, helds_carve, List.map_append, List.map_cons, ← hs.ptr]
    refine List.perm_middle.trans (List.Perm.cons _ ?_)
    have h1 := I.ledger
    rwa [holdings, hbs, List.map_append] at h1
  · intro c hc
    rw [helds_carve] at hc
    have hcases : c ∈ helds bs ∨
        c = ⟨b.addr + (b.size - quantas e n) * e.hdr, quantas e n, some n⟩ := by
      rw [hbs]
      simp only [List.mem_append, List.mem_cons] at hc ⊢
      tauto
    rcases hcases with hc | rfl
    · exact I.room c hc
    · exact (quantas_bounds hn).1

/-- When the request is refused nothing changes. -/
theorem refused (I : Accounted e S bs) (P : Sited e S.st.pool S.st.poolSize) {s' : State}
    (L : Layout e s' (s'.pool + s'.poolFreePos) bs) (K : Kept e bs S.st s') :
    Accounted e ⟨s', S.live⟩ bs := by
  have hsess : s'.session ≠ 0 := by
    rw [K.statics]
    exact I.session
  exact ⟨Or.inr (K.sited P), hsess, Or.inr L, I.ledger, I.room⟩

/-- **Allocating keeps the invariant**, and always comes back. -/
theorem alloc (I : Accounted e S bs) (fuel : Nat) (P : Sited e S.st.pool S.st.poolSize)
    (hno : S.st.poolFreePos + growth (exactQuantas e n) * e.hdr < e.range)
    (hf : 2 * S.st.poolSize.toNat + 2 ≤ fuel) :
    ∃ p s' bs', memmgrAlloc e fuel S.st n = some (p, s') ∧
      Accounted e ⟨s', if p = 0 then S.live else (p, n) :: S.live⟩ bs' ∧ Kept e bs S.st s' := by
  rcases I.healthy.memmgrAlloc n fuel P I.session (quantas_no_wrap hno) hf with
    ⟨p, s', l, b, r, halloc, hs⟩ | ⟨s', halloc, hs⟩
  · obtain ⟨hp, I'⟩ := I.served P (round_lt hno) hs
    refine ⟨p, s', carve e n (quantas e n) l b r, halloc, ?_, hs.kept⟩
    rw [if_neg hp]
    exact I'
  · refine ⟨0, s', bs, halloc, ?_, hs.kept⟩
    rw [if_pos rfl]
    exact I.refused P hs.layout hs.kept

/-- **Freeing a block of a client** always comes back, and releases the block. -/
theorem released {l r : List Block} {b : Block} (I : Accounted e S (l ++ b :: r)) (fuel : Nat)
    (hreq : b.req = some n) (hbp : b.addr + e.hdr = p) (hf : S.st.poolSize.toNat < fuel) :
    ∃ s', memmgrFree e fuel S.st p = some s' ∧
      Accounted e ⟨s', S.live.erase (p, n)⟩ (release l b r) ∧
      Kept e (l ++ b :: r) S.st s' ∧ s'.poolFreePos = S.st.poolFreePos := by
  obtain ⟨P, L⟩ := I.layout (Or.inl (by simp))
  have hb : b.isFree = false := by rw [Block.isFree, hreq]; rfl
  have hlen : (frees l ++ frees r).length < fuel := by
    have h1 := length_frees_le (l ++ b :: r)
    have h2 := L.length_le
    rw [Layout.frees_middle hb] at h1
    omega
  obtain ⟨s', hfree, L', K, -, hpos, -⟩ := L.memmgrFree P hb hlen
  have hsess : s'.session ≠ 0 := by
    rw [K.statics]
    exact I.session
  have hheld : helds (l ++ b :: r) = helds l ++ b :: helds r := by
    rw [helds_append, helds_cons_held hb]
  refine ⟨s', by rw [← hbp, hfree], ⟨Or.inr (K.sited P), hsess, Or.inr ?_, ?_, ?_⟩, K, hpos⟩
  · rw [K.pool_eq, hpos]
    exact L'
  · have h1 : (holdings e (l ++ b :: r)).Perm ((p, n) :: (helds l ++ helds r).map fun b =>
        (b.addr + e.hdr, b.req.getD 0)) := by
      rw [holdings, hheld, List.map_append, List.map_cons, hreq, Option.getD_some, hbp,
        List.map_append]
      exact List.perm_middle
    have h2 := (I.ledger.symm.trans h1).erase (p, n)
    rw [List.erase_cons_head] at h2
    rw [holdings, helds_release]
    exact h2.symm
  · intro c hc
    rw [helds_release] at hc
    refine I.room c ?_
    rw [hheld]
    simp only [List.mem_append, List.mem_cons] at hc ⊢
    tauto

/-- **Freeing keeps the invariant**, and always comes back. -/
theorem free (I : Accounted e S bs) (fuel : Nat) (hp : (p, n) ∈ S.live)
    (hf : S.st.poolSize.toNat < fuel) :
    ∃ s' bs', memmgrFree e fuel S.st p = some s' ∧ Accounted e ⟨s', S.live.erase (p, n)⟩ bs' ∧
      Kept e bs S.st s' ∧ s'.poolFreePos = S.st.poolFreePos := by
  obtain ⟨l, b, r, rfl, hreq, hbp, -⟩ := I.exists_block hp
  obtain ⟨s', hfree, I', K, hpos⟩ := I.released fuel hreq hbp hf
  exact ⟨s', release l b r, hfree, I', K, hpos⟩

/-- The payload of a client keeps off the headers, and so does memory that is not the
allocator's. -/
theorem outside (I : Accounted e S bs) {a q : Nat} (ha : S.Held a ∨ S.Foreign e a)
    (hq : q ∈ e.base :: bs.map Block.addr) : a < q ∨ q + e.hdr ≤ a := by
  rcases ha with ⟨p, n, hp, h1, h2⟩ | ⟨h1, h2⟩
  · obtain ⟨l, b, r, rfl, -, rfl, hlen⟩ := I.exists_block hp
    obtain ⟨P, L⟩ := I.layout (Or.inl (by simp))
    exact L.payload_outside (c := b) P (by simp) hq (by omega) (by omega)
  · by_cases hbs : bs = []
    · subst hbs
      obtain rfl := by simpa using hq
      exact h1
    · exact (I.layout (Or.inl hbs)).2.foreign_outside hq h1 h2

/-- Storing a byte there keeps the invariant. -/
theorem store (I : Accounted e S bs) {a : Nat} (v : UInt8) (ha : S.Held a ∨ S.Foreign e a) :
    Accounted e ⟨{ S.st with mem := Function.update S.st.mem a v }, S.live⟩ bs := by
  refine I.of_mem fun q hq x h1 h2 => ?_
  have h3 := I.outside ha hq
  exact Function.update_of_ne (by omega) _ _

end Accounted

/-- The session is accounted for, and its pool is small enough for no size to overflow. -/
structure Inv (e : Env) (S : Session) (bs : List Block) : Prop extends Accounted e S bs where
  modest : S.st.pool ≠ 0 → 2 * S.st.poolSize.toNat + 16 * e.hdr < e.range

namespace Inv

variable {e : Env} {S S' : Session} {bs bs' : List Block} {p n fuel : Nat}

/-- The second part only depends on the pool. -/
theorem keep (I : Inv e S bs) (I' : Accounted e S' bs') (hpool : S'.st.pool = S.st.pool)
    (hsize : S'.st.poolSize = S.st.poolSize) : Inv e S' bs' :=
  ⟨I', by rw [hpool, hsize]; exact I.modest⟩

/-- An opened session has no blocks. -/
theorem opened {s : State} {buffer : Nat} {length baseAddress : UInt32} (hs : s.session = 0)
    (hp : buffer = 0 ∨ Placed e buffer length) :
    Inv e (Session.opened e s buffer length baseAddress) [] := by
  refine ⟨Accounted.opened hs (hp.imp_right Placed.toSited), ?_⟩
  rw [Session.opened, memmgrInit, if_pos hs]
  exact fun h0 => (hp.resolve_left h0).room

/-- Clients that keep off the headers do not disturb the heap. -/
theorem of_mem (I : Inv e S bs) {m : Mem}
    (hm : ∀ q ∈ e.base :: bs.map Block.addr, ∀ x, q ≤ x → x < q + e.hdr → m x = S.st.mem x) :
    Inv e ⟨{ S.st with mem := m }, S.live⟩ bs :=
  I.keep (I.toAccounted.of_mem hm) rfl rfl

/-- No size overflows while the request fits into the pool. -/
theorem no_wrap (I : Inv e S bs) (P : Sited e S.st.pool S.st.poolSize)
    (hn : n ≤ S.st.poolSize.toNat) :
    S.st.poolFreePos + growth (exactQuantas e n) * e.hdr < e.range := by
  have hmodest := I.modest P.pool_pos.ne'
  have hpos := I.healthy.pos_le
  have hround := (exactQuantas_bounds e n).2
  rw [growth, minPoolAllocQuantas]
  split
  · omega
  · omega

/-- A block that has been carved belongs to the client. -/
theorem served (I : Inv e S bs) (P : Sited e S.st.pool S.st.poolSize)
    (hn : n ≤ S.st.poolSize.toNat) {s' : State} {l r : List Block} {b : Block}
    (hs : Served e S.st s' n p bs l b r) :
    p ≠ 0 ∧ Inv e ⟨s', (p, n) :: S.live⟩ (carve e n (quantas e n) l b r) := by
  obtain ⟨hp, I'⟩ := I.toAccounted.served P (round_lt (I.no_wrap P hn)) hs
  exact ⟨hp, I.keep I' hs.kept.pool_eq hs.kept.poolSize_eq⟩

/-- When the request is refused nothing changes. -/
theorem refused (I : Inv e S bs) (P : Sited e S.st.pool S.st.poolSize) {s' : State}
    (hs : Refused e S.st s' n bs) : Inv e ⟨s', S.live⟩ bs :=
  I.keep (I.toAccounted.refused P hs.layout hs.kept) hs.kept.pool_eq hs.kept.poolSize_eq

/-- Allocating what fits into the pool keeps the invariant. -/
theorem alloc (I : Inv e S bs) (fuel : Nat) (hn : n ≤ S.st.poolSize.toNat)
    (hf : 2 * S.st.poolSize.toNat + 2 ≤ fuel) :
    ∃ p s' bs', memmgrAlloc e fuel S.st n = some (p, s') ∧
      Inv e ⟨s', if p = 0 then S.live else (p, n) :: S.live⟩ bs' ∧ Kept e bs S.st s' := by
  rcases I.place with ⟨hpool, h0, hpos, rfl⟩ | P
  · refine ⟨0, S.st, [], ?_, I, Kept.refl _⟩
    rw [memmgrAlloc, if_pos hpool]
  obtain ⟨p, s', bs', halloc, I', K⟩ := I.toAccounted.alloc fuel P (I.no_wrap P hn) hf
  exact ⟨p, s', bs', halloc, I.keep I' K.pool_eq K.poolSize_eq, K⟩

/-- So does freeing. -/
theorem free (I : Inv e S bs) (fuel : Nat) (hp : (p, n) ∈ S.live)
    (hf : S.st.poolSize.toNat < fuel) :
    ∃ s' bs', memmgrFree e fuel S.st p = some s' ∧ Inv e ⟨s', S.live.erase (p, n)⟩ bs' ∧
      Kept e bs S.st s' ∧ s'.poolFreePos = S.st.poolFreePos := by
  obtain ⟨s', bs', hfree, I', K, hpos⟩ := I.toAccounted.free fuel hp hf
  exact ⟨s', bs', hfree, I.keep I' K.pool_eq K.poolSize_eq, K, hpos⟩

/-- So does storing into a payload, or where the allocator has nothing. -/
theorem store (I : Inv e S bs) {a : Nat} (v : UInt8) (ha : S.Held a ∨ S.Foreign e a) :
    Inv e ⟨{ S.st with mem := Function.update S.st.mem a v }, S.live⟩ bs :=
  I.keep (I.toAccounted.store v ha) rfl rfl

/-- **One action keeps the invariant.** -/
theorem step (I : Inv e S bs) {op : Op} (h : Step e S op S') :
    ∃ bs', Inv e S' bs' ∧ ((∃ a v, op = .store a v) ∨ Kept e bs S.st S'.st) := by
  cases h with
  | @alloc n p fuel s' hn h =>
    obtain ⟨p', s'', bs', h', I', K⟩ := I.alloc (fuel + (2 * S.st.poolSize.toNat + 2)) hn
      (by omega)
    obtain ⟨rfl, rfl⟩ := Prod.mk.inj
      (Option.some.inj ((memmgrAlloc_mono h (by omega)).symm.trans h'))
    exact ⟨bs', I', Or.inr K⟩
  | @free p n fuel s' hp h =>
    obtain ⟨s'', bs', h', I', K, -⟩ := I.free (fuel + (S.st.poolSize.toNat + 1)) hp (by omega)
    obtain rfl := Option.some.inj ((memmgrFree_mono h (by omega)).symm.trans h')
    exact ⟨bs', I', Or.inr K⟩
  | store ha => exact ⟨bs, I.store _ ha, Or.inl ⟨_, _, rfl⟩⟩

/-- **So does a whole run.** -/
theorem run {Q : Op → Prop} (I : Inv e S bs) (h : Run e Q S S') : ∃ bs', Inv e S' bs' := by
  induction h with
  | refl => exact ⟨bs, I⟩
  | tail _ hstep ih =>
    obtain ⟨bs', I'⟩ := ih
    obtain ⟨op, -, hop⟩ := hstep
    obtain ⟨bs'', I'', -⟩ := I'.step hop
    exact ⟨bs'', I''⟩

end Inv

theorem Reachable.inv {e : Env} {s : State} {buffer : Nat} {length baseAddress : UInt32}
    {S : Session} (hs : s.session = 0) (hp : buffer = 0 ∨ Placed e buffer length)
    (h : Reachable e s buffer length baseAddress S) : ∃ bs, Inv e S bs :=
  (Inv.opened hs hp).run h

/-- The two states have the same pool. -/
structure SamePool (s s' : State) : Prop where
  pool_eq : s'.pool = s.pool
  poolSize_eq : s'.poolSize = s.poolSize
  baseAddress_eq : s'.baseAddress = s.baseAddress

/-- No action of a client changes the pool. -/
theorem Inv.step_samePool {e : Env} {S S' : Session} {bs : List Block} (I : Inv e S bs) {op : Op}
    (h : Step e S op S') : SamePool S.st S'.st := by
  obtain ⟨-, -, ⟨a, v, rfl⟩ | K⟩ := I.step h
  · cases h
    exact ⟨rfl, rfl, rfl⟩
  · exact ⟨K.pool_eq, K.poolSize_eq, by rw [K.statics]⟩

theorem Inv.step_poolSize {e : Env} {S S' : Session} {bs : List Block} (I : Inv e S bs) {op : Op}
    (h : Step e S op S') : S'.st.poolSize = S.st.poolSize := (I.step_samePool h).poolSize_eq

theorem Reachable.samePool {e : Env} {s : State} {buffer : Nat} {length baseAddress : UInt32}
    {S : Session} (hs : s.session = 0) (hp : buffer = 0 ∨ Placed e buffer length)
    (h : Reachable e s buffer length baseAddress S) :
    S.st.pool = buffer ∧ S.st.poolSize = length ∧ S.st.baseAddress = baseAddress := by
  induction h with
  | refl =>
    rw [Session.opened, memmgrInit, if_pos hs]
    exact ⟨rfl, rfl, rfl⟩
  | tail hrun hstep ih =>
    obtain ⟨bs, I⟩ := Reachable.inv hs hp hrun
    obtain ⟨op, -, hop⟩ := hstep
    obtain ⟨h1, h2, h3⟩ := I.step_samePool hop
    rwa [h1, h2, h3]

theorem Reachable.poolSize_eq {e : Env} {s : State} {buffer : Nat} {length baseAddress : UInt32}
    {S : Session} (hs : s.session = 0) (hp : buffer = 0 ∨ Placed e buffer length)
    (h : Reachable e s buffer length baseAddress S) : S.st.poolSize = length :=
  (h.samePool hs hp).2.1

theorem Reachable.alloc {e : Env} {s s' : State} {buffer p n fuel : Nat}
    {length baseAddress : UInt32} {S : Session} (h : Reachable e s buffer length baseAddress S)
    (hn : n ≤ S.st.poolSize.toNat) (halloc : memmgrAlloc e fuel S.st n = some (p, s'))
    (hp : p ≠ 0) : Reachable e s buffer length baseAddress ⟨s', (p, n) :: S.live⟩ := by
  have hstep := Step.alloc hn halloc
  rw [if_neg hp] at hstep
  exact .tail h ⟨_, trivial, hstep⟩

theorem Reachable.free {e : Env} {s s' : State} {buffer p n fuel : Nat}
    {length baseAddress : UInt32} {S : Session} (h : Reachable e s buffer length baseAddress S)
    (hp : (p, n) ∈ S.live) (hfree : memmgrFree e fuel S.st p = some s') :
    Reachable e s buffer length baseAddress ⟨s', S.live.erase (p, n)⟩ :=
  .tail h ⟨_, trivial, .free hp hfree⟩

/-- A run of three calls: two blocks are allocated, and the first of them is freed. -/
theorem zynq_reachable : ∃ S,
    Reachable Env.zynq (State.loaded fun _ => 0) 0x100000 640 0x1f410000 S ∧
      S.live = [(0x1000f0, 40)] := by
  have h : ((memmgrAlloc Env.zynq 100 (memmgrInit Env.zynq (State.loaded fun _ => 0) 0x100000 640
      0x1f410000) 16).bind fun r => (memmgrAlloc Env.zynq 100 r.2 40).bind fun r' =>
        (memmgrFree Env.zynq 100 r'.2 r.1).map fun s => (r.1, r'.1, r.2.poolSize, s.pool)) =
      some (0x10012c, 0x1000f0, 640, 0x100000) := by
    decide +kernel
  simp only [Option.bind_eq_some_iff, Option.map_eq_some_iff, Prod.mk.injEq] at h
  obtain ⟨⟨p, s₁⟩, h₁, ⟨q, s₂⟩, h₂, s₃, h₃, rfl, rfl, hsize, -⟩ := h
  have hn : 40 ≤ s₁.poolSize.toNat := by rw [hsize]; decide
  have R₁ := Reachable.alloc .refl (show 16 ≤ (640 : UInt32).toNat by decide) h₁ (by decide)
  have R₂ := R₁.alloc hn h₂ (by decide)
  exact ⟨_, R₂.free (n := 16) (by simp) h₃, rfl⟩

/-- A 32-bit target that has `base` directly behind a pool of 320 bytes at the address
`0x100000`. -/
def behind : Env := ⟨.ilp32, 0x100140, by decide, by decide⟩

/-- A session over that pool. -/
abbrev BehindReachable : Session → Prop :=
  Reachable behind (State.loaded fun _ => 0) 0x100000 320 0x1f410000

/-- A run of four calls there.  The block that is freed ends where `base` begins, so it swallows
`base` and the free list closes without it; the block that is then taken whole is its own successor
and stays on the list, and the last request is served out of it. -/
theorem behind_run : ∃ s₁ s₂ s₃ s₄ : State,
    BehindReachable ⟨s₁, [(0x10012c, 16)]⟩ ∧
    memmgrFree behind 400 s₁ 0x10012c = some s₂ ∧
    BehindReachable ⟨s₃, [(0x100014, 300)]⟩ ∧
    BehindReachable ⟨s₄, [(0x10012c, 16), (0x100014, 300)]⟩ ∧
    (s₂.pool = 0x100000 ∧ s₂.poolFreePos = 320 ∧ s₂.freep = 0x100000 ∧
      s₂.next behind 0x100000 = 0x100000) ∧
    s₃.pool = 0x100000 ∧ s₃.freep = 0x100000 ∧ s₃.next behind 0x100000 = 0x100000 := by
  have h : ((memmgrAlloc behind 400 (memmgrInit behind (State.loaded fun _ => 0) 0x100000 320
      0x1f410000) 16).bind fun r₁ => (memmgrFree behind 400 r₁.2 0x10012c).bind fun s₂ =>
        (memmgrAlloc behind 400 s₂ 300).bind fun r₃ =>
          (memmgrAlloc behind 400 r₃.2 16).map fun r₄ => [r₁.1, r₃.1, r₄.1,
            s₂.poolSize.toNat, s₂.pool, s₂.poolFreePos, s₂.freep, s₂.next behind 0x100000,
            r₃.2.poolSize.toNat, r₃.2.pool, r₃.2.freep, r₃.2.next behind 0x100000]) =
      some [0x10012c, 0x100014, 0x10012c, 320, 0x100000, 320, 0x100000, 0x100000,
        320, 0x100000, 0x100000, 0x100000] := by
    decide +kernel
  simp only [Option.bind_eq_some_iff, Option.map_eq_some_iff, List.cons.injEq, and_true] at h
  obtain ⟨⟨p₁, s₁⟩, h₁, s₂, h₂, ⟨p₃, s₃⟩, h₃, ⟨p₄, s₄⟩, h₄, rfl, rfl, rfl,
    hsize₂, hpool₂, hpos₂, hfreep₂, hnext₂, hsize₃, hpool₃, hfreep₃, hnext₃⟩ := h
  have R₁ : BehindReachable ⟨s₁, [(0x10012c, 16)]⟩ :=
    Reachable.alloc .refl (show 16 ≤ (320 : UInt32).toNat by decide) h₁ (by decide)
  have R₂ : BehindReachable ⟨s₂, []⟩ :=
    Reachable.free R₁ (List.mem_singleton.2 rfl) h₂
  have R₃ : BehindReachable ⟨s₃, [(0x100014, 300)]⟩ :=
    Reachable.alloc R₂ (le_of_le_of_eq (by decide) hsize₂.symm) h₃ (by decide)
  have R₄ : BehindReachable ⟨s₄, [(0x10012c, 16), (0x100014, 300)]⟩ :=
    Reachable.alloc R₃ (le_of_le_of_eq (by decide) hsize₃.symm) h₄ (by decide)
  exact ⟨s₁, s₂, s₃, s₄, R₁, h₂, R₃, R₄, ⟨hpool₂, hpos₂, hfreep₂, hnext₂⟩, hpool₃, hfreep₃, hnext₃⟩

/-! ## The shape of the heap -/

namespace Accounted

variable {e : Env} {S S' : Session} {bs : List Block} {p n fuel : Nat}

theorem tiles (I : Accounted e S bs) : Tiles Block.addr (Block.bytes e) S.st.pool bs
    (S.st.pool + S.st.poolFreePos) ∧ S.st.poolFreePos ≤ S.st.poolSize.toNat ∧
    (∀ b ∈ bs, S.st.size e b.addr = b.size) ∧ Coalesced bs := by
  rcases I.healthy with ⟨-, h0, rfl⟩ | L
  · rw [h0]
    exact ⟨rfl, Nat.zero_le _, by simp, List.IsChain.nil⟩
  · exact ⟨L.tiles, Nat.le_of_add_le_add_left L.inside, L.sizes, L.coalesced⟩

/-- The walk over the heap in `memmgr_print_stats`. -/
theorem sweep_eq (I : Accounted e S bs) (hf : S.st.poolSize.toNat < fuel) :
    sweep (fun p => e.ptrAdd p (S.st.size e p)) (S.st.pool + S.st.poolFreePos) fuel S.st.pool =
      some (bs.map Block.addr, S.st.pool + S.st.poolFreePos) := by
  obtain ⟨htiles, hpos, hsizes, -⟩ := I.tiles
  have hlen := htiles.length_le
  refine htiles.sweep_eq (fun b hb => ?_) (by omega)
  rw [hsizes b hb]
  obtain ⟨P, L⟩ := I.layout (Or.inl (List.ne_nil_of_mem hb))
  exact L.ptrAdd_size P hb

/-- The walk over the free list in `memmgr_print_stats`. -/
theorem lap_eq (I : Accounted e S bs) (h0 : S.st.freep ≠ 0) (hf : S.st.poolSize.toNat < fuel) :
    ∃ l, lap (S.st.next e) S.st.freep fuel S.st.freep = some l ∧ l.Perm (e.base :: frees bs) := by
  obtain ⟨P, L⟩ := I.layout (Or.inr h0)
  obtain ⟨l, h, hperm⟩ := L.ring.exists_rotation L.freep_mem
  have h1 := hperm.length_eq
  have h2 := length_frees_le bs
  have h3 := L.length_le
  simp only [List.length_cons] at h1
  exact ⟨_, h.lap_eq (hperm.nodup_iff.2 (L.ring_nodup P)) (by omega), hperm⟩

/-- **`memmgr_print_stats` prints every block once, and every member of the free list once.** -/
theorem printStats (I : Accounted e S bs) (hf : S.st.poolSize.toNat < fuel) :
    ∃ fl, memmgrPrintStats e fuel S.st = some (bs.map fun b => (b.addr, b.size), fl) ∧
      (S.st.freep ≠ 0 → (fl.map Prod.fst).Perm (e.base :: frees bs)) := by
  rcases I.place with ⟨hpool, h0, -, rfl⟩ | P
  · refine ⟨[], ?_, fun h => absurd h0 h⟩
    rw [memmgrPrintStats, if_pos hpool]
    rfl
  obtain ⟨-, hpos, hsizes, -⟩ := I.tiles
  have hend : (S.st.pool + S.st.poolFreePos) % e.range = S.st.pool + S.st.poolFreePos :=
    Nat.mod_eq_of_lt (by have := P.fits; omega)
  have hheap : (bs.map Block.addr).map (fun p => (p, S.st.size e p)) =
      bs.map fun b => (b.addr, b.size) := by
    rw [List.map_map]
    exact List.map_congr_left fun b hb => by simp [hsizes b hb]
  rw [memmgrPrintStats, if_neg P.pool_pos.ne', hend, I.sweep_eq hf]
  by_cases h0 : S.st.freep = 0
  · refine ⟨[], ?_, fun h => absurd h0 h⟩
    simp [h0, hheap]
  · obtain ⟨l, hl, hperm⟩ := I.lap_eq h0 hf
    refine ⟨l.map fun p => (p, S.st.size e p, S.st.next e p), ?_, fun _ => ?_⟩
    · simp only [h0, if_false, hl, Option.bind_eq_bind, Option.bind_some, hheap]
    · rw [List.map_map]
      exact (List.map_id' l).symm ▸ hperm

end Accounted

/-- The heap of the session consists of the blocks `bs`, those the clients hold and those on the
free list. -/
structure WellFormed (e : Env) (S : Session) (bs : List Block) : Prop where
  /-- The held blocks are those of the clients. -/
  ledger : (holdings e bs).Perm S.live
  /-- Each block is as long as its header says. -/
  sizes : ∀ b ∈ bs, S.st.size e b.addr = b.size
  /-- They tile the pool from its start to `pool_free_pos`. -/
  tiles : Tiles Block.addr (Block.bytes e) S.st.pool bs (S.st.pool + S.st.poolFreePos)
  /-- The walk over the heap visits each block once, in order, and ends at `pool_free_pos`. -/
  walk : ∀ fuel, S.st.poolSize.toNat < fuel →
    sweep (fun p => e.ptrAdd p (S.st.size e p)) (S.st.pool + S.st.poolFreePos) fuel S.st.pool =
      some (bs.map Block.addr, S.st.pool + S.st.poolFreePos)
  /-- `memmgr_print_stats` prints each block once, and each member of the free list once. -/
  stats : ∀ fuel, S.st.poolSize.toNat < fuel →
    ∃ fl, memmgrPrintStats e fuel S.st = some (bs.map fun b => (b.addr, b.size), fl) ∧
      (S.st.freep ≠ 0 → (fl.map Prod.fst).Perm (e.base :: frees bs))
  /-- `pool_free_pos` does not pass the end of the pool. -/
  pos_le : S.st.poolFreePos ≤ S.st.poolSize.toNat
  /-- `freep` is null, or on the ring of `base` and the free blocks in increasing order; the order
  wraps once, since `base` lies below or above all of them. -/
  ring : S.st.freep = 0 ∨ (S.st.freep ∈ e.base :: frees bs ∧ S.st.size e e.base = 0 ∧
    IsRing (S.st.next e) e.base (frees bs) ∧ (frees bs).Pairwise (· < ·) ∧
    Beside e.base (frees bs))
  /-- No two free blocks are neighbours. -/
  coalesced : Coalesced bs

theorem Accounted.wellFormed {e : Env} {S : Session} {bs : List Block} (I : Accounted e S bs) :
    WellFormed e S bs := by
  obtain ⟨htiles, hpos, hsizes, hcoal⟩ := I.tiles
  refine ⟨I.ledger, hsizes, htiles, fun fuel hf => I.sweep_eq hf, fun fuel hf => I.printStats hf,
    hpos, ?_, hcoal⟩
  by_cases h0 : S.st.freep = 0
  · exact Or.inl h0
  · obtain ⟨P, L⟩ := I.layout (Or.inr h0)
    refine Or.inr ⟨L.freep_mem, L.base_size, L.ring, L.frees_sorted, ?_⟩
    have hsub : ∀ y ∈ frees bs, y ∈ bs.map Block.addr := fun y hy => (frees_sublist bs).mem hy
    exact (L.beside P).imp (fun h y hy => h y (hsub y hy)) fun h y hy => h y (hsub y hy)

/-- **The heap is well formed in every reachable session**, and every call that a client may make
there comes back. -/
theorem heap_wellformed {e : Env} {s : State} {buffer : Nat} {length baseAddress : UInt32}
    {S : Session} (hs : s.session = 0) (hp : buffer = 0 ∨ Placed e buffer length)
    (h : Reachable e s buffer length baseAddress S) :
    (∃ bs : List Block, WellFormed e S bs) ∧
    (∀ n fuel, n ≤ S.st.poolSize.toNat → 2 * S.st.poolSize.toNat + 2 ≤ fuel →
      (memmgrAlloc e fuel S.st n).isSome) ∧
    (∀ p n fuel, (p, n) ∈ S.live → S.st.poolSize.toNat < fuel →
      (memmgrFree e fuel S.st p).isSome) := by
  obtain ⟨bs, I⟩ := h.inv hs hp
  refine ⟨⟨bs, I.wellFormed⟩, ?_, ?_⟩
  · intro n fuel hn hf
    obtain ⟨p, s', bs', halloc, -, -⟩ := I.alloc fuel hn hf
    rw [halloc]
    rfl
  · intro p n fuel hlive hf
    obtain ⟨s', bs', hfree, -, -⟩ := I.free fuel hlive hf
    rw [hfree]
    rfl

theorem heap_wellformed_zynq : ∃ S,
    Reachable Env.zynq (State.loaded fun _ => 0) 0x100000 640 0x1f410000 S ∧
      S.live = [(0x1000f0, 40)] ∧ ∃ bs, WellFormed Env.zynq S bs := by
  obtain ⟨S, hS, hlive⟩ := zynq_reachable
  exact ⟨S, hS, hlive, (heap_wellformed rfl (Or.inr zynq_placed) hS).1⟩

/-! ## Isolation -/

namespace Accounted

variable {e : Env} {S S' : Session} {bs : List Block} {p n : Nat}

/-- A payload lies in the pool, and apart from all headers. -/
theorem payload (I : Accounted e S bs) (hp : (p, n) ∈ S.live) :
    S.st.pool ≤ p ∧ p + n ≤ S.st.pool + S.st.poolSize.toNat ∧
      ∀ q ∈ e.base :: bs.map Block.addr, p + n ≤ q ∨ q + e.hdr ≤ p := by
  obtain ⟨l, b, r, rfl, -, hbp, hlen⟩ := I.exists_block hp
  obtain ⟨P, L⟩ := I.layout (Or.inl (by simp))
  have hb := L.bounds (b := b) (by simp)
  have hin := L.inside
  refine ⟨by omega, by omega, fun q hq => ?_⟩
  rcases L.head_apart P (c := b) (by simp) hq with h | h
  · exact Or.inl (by omega)
  · exact Or.inr (by omega)

/-- The payloads are apart from each other. -/
theorem pairwise (I : Accounted e S bs) : (S.live.map Prod.fst).Nodup ∧
    S.live.Pairwise fun x y => x.1 + x.2 ≤ y.1 ∨ y.1 + y.2 ≤ x.1 := by
  have hsub : (helds bs).Sublist bs := List.filter_sublist
  have htiles := I.tiles.1
  refine ⟨?_, ?_⟩
  · refine (I.ledger.map Prod.fst).nodup_iff.1 ?_
    rw [holdings, List.map_map]
    have h1 := (htiles.sorted.sublist (hsub.map Block.addr)).imp fun h => ne_of_lt h
    rw [List.pairwise_map] at h1
    refine List.pairwise_map.2 (h1.imp fun {b c} h => ?_)
    show b.addr + e.hdr ≠ c.addr + e.hdr
    omega
  · refine (I.ledger.pairwise_iff fun {x y} h => Or.symm h).1 ?_
    refine List.pairwise_map.2 (List.Pairwise.imp_of_mem (fun {b c} hb hc h => ?_)
      (htiles.pairwise.sublist hsub))
    have := I.room b hb
    exact Or.inl (by dsimp only; omega)

end Accounted

/-- One action changes no byte of a payload unless it stores there, and only its own `free` ends the
life of a pointer. -/
theorem Inv.step_payload {e : Env} {S S' : Session} {bs : List Block} {p n : Nat}
    (I : Inv e S bs) {op : Op} (h : Step e S op S') (hp : (p, n) ∈ S.live)
    (hfree : op ≠ .free p) (hstore : ∀ a v, op = .store a v → a < p ∨ p + n ≤ a) :
    (p, n) ∈ S'.live ∧ ∀ x, p ≤ x → x < p + n → S'.st.mem x = S.st.mem x := by
  obtain ⟨l, b, r, rfl, hreq, hbp, hlen⟩ := I.exists_block hp
  have hb : b.isFree = false := by rw [Block.isFree, hreq]; rfl
  refine ⟨?_, fun x h1 h2 => ?_⟩
  · cases h with
    | alloc hn halloc =>
      dsimp only
      split
      · exact hp
      · exact List.mem_cons_of_mem _ hp
    | @free p' n' _ _ hp' _ =>
      refine (List.mem_erase_of_ne fun heq => hfree ?_).2 hp
      obtain ⟨rfl, rfl⟩ := Prod.mk.inj heq
      rfl
    | store => exact hp
  · obtain ⟨bs', -, hK⟩ := I.step h
    rcases hK with ⟨a, v, rfl⟩ | K
    · have h3 := hstore a v rfl
      cases h with
      | store _ => exact Function.update_of_ne (by omega) _ _
    · exact K.payload b (by simp) hb x (by omega) (by omega)

/-- The actions that neither free `p` nor store into its `n` bytes. -/
def Leaves (p n : Nat) (op : Op) : Prop :=
  op ≠ .free p ∧ ∀ a v, op = .store a v → a < p ∨ p + n ≤ a

/-- What the clients of a session can rely on. -/
structure Isolated (e : Env) (S : Session) : Prop where
  /-- Every payload lies in the pool, and apart from all headers. -/
  payload : ∃ bs, WellFormed e S bs ∧ ∀ p n, (p, n) ∈ S.live →
    S.st.pool ≤ p ∧ p + n ≤ S.st.pool + S.st.poolSize.toNat ∧
    ∀ q ∈ e.base :: bs.map Block.addr, p + n ≤ q ∨ q + e.hdr ≤ p
  /-- No pointer is held twice. -/
  nodup : (S.live.map Prod.fst).Nodup
  /-- The payloads are apart from each other. -/
  apart : S.live.Pairwise fun x y => x.1 + x.2 ≤ y.1 ∨ y.1 + y.2 ≤ x.1
  /-- Until the pointer is freed it is held, and its bytes only change where somebody stores into
  them. -/
  frame : ∀ p n S', (p, n) ∈ S.live → Run e (Leaves p n) S S' →
    (p, n) ∈ S'.live ∧ ∀ x, p ≤ x → x < p + n → S'.st.mem x = S.st.mem x

/-- **A payload belongs to its holder alone**, in every reachable session and from there on. -/
theorem client_isolation {e : Env} {s : State} {buffer : Nat} {length baseAddress : UInt32}
    {S : Session} (hs : s.session = 0) (hp : buffer = 0 ∨ Placed e buffer length)
    (h : Reachable e s buffer length baseAddress S) : Isolated e S := by
  obtain ⟨bs, I⟩ := h.inv hs hp
  refine ⟨⟨bs, I.wellFormed, fun p n hlive => I.payload hlive⟩, I.pairwise.1, I.pairwise.2, ?_⟩
  intro p n S' hlive hrun
  induction hrun with
  | refl => exact ⟨hlive, fun x _ _ => rfl⟩
  | tail hrun hstep ih =>
    obtain ⟨hlive', hmem⟩ := ih
    obtain ⟨bs', I'⟩ := I.run hrun
    obtain ⟨op, ⟨hfree, hstore⟩, hop⟩ := hstep
    obtain ⟨h1, h2⟩ := I'.step_payload hop hlive' hfree hstore
    exact ⟨h1, fun x hx1 hx2 => (h2 x hx1 hx2).trans (hmem x hx1 hx2)⟩

theorem client_isolation_zynq : ∃ S,
    Reachable Env.zynq (State.loaded fun _ => 0) 0x100000 640 0x1f410000 S ∧
      S.live = [(0x1000f0, 40)] ∧ Isolated Env.zynq S := by
  obtain ⟨S, hS, hlive⟩ := zynq_reachable
  exact ⟨S, hS, hlive, client_isolation rfl (Or.inr zynq_placed) hS⟩

/-- **Two clients are given the same memory** where `base` lies directly behind the pool. -/
theorem client_isolation_behind : ∃ S, BehindReachable S ∧ ¬Isolated behind S := by
  obtain ⟨s₁, s₂, s₃, s₄, -, -, -, hS, -⟩ := behind_run
  refine ⟨_, hS, fun I => ?_⟩
  have h := (List.pairwise_cons.1 I.apart).1 (0x100014, 300) (List.mem_singleton.2 rfl)
  exact absurd h (by decide)

end Memmgr
end Zedboard
