import Zedboard.Memmgr.Header

/-!
# What a healthy heap looks like

The abstract state of the allocator is a list of blocks in address order, each either free or held
for a request of some number of bytes.  `Layout` says that a concrete state is the image of such a
list:

* the blocks tile the part of the pool that has been handed out;
* each header holds the size of its block;
* `base` and the free blocks form the ring of successors, and `freep` is on it;
* no two neighbouring blocks are free.

`predOf` and `succOf` are the neighbours in the ring of a place in the list, and `sep_heads` is the
fact that makes the header writes independent of each other: no two headers overlap.  `Kept` is the
frame of every operation: what it leaves of the memory.
-/

set_option autoImplicit false

namespace Zedboard
namespace Memmgr

/-- A block of the heap: the address of its header, its size in quanta, header included, and the
number of bytes its holder asked for, if it has one. -/
structure Block where
  addr : Nat
  size : Nat
  req : Option Nat
  deriving DecidableEq, Repr

/-- Nobody holds the block. -/
def Block.isFree (b : Block) : Bool := b.req.isNone

/-- The length of the block in bytes. -/
def Block.bytes (e : Env) (b : Block) : Nat := b.size * e.hdr

/-! ## The free and the held blocks -/

/-- The addresses of the free blocks, in address order. -/
def frees (bs : List Block) : List Nat := (bs.filter Block.isFree).map Block.addr

@[simp] theorem frees_nil : frees [] = [] := rfl

@[simp] theorem frees_append (l r : List Block) : frees (l ++ r) = frees l ++ frees r := by
  simp [frees]

theorem frees_cons_free {b : Block} {r : List Block} (h : b.isFree = true) :
    frees (b :: r) = b.addr :: frees r := by
  simp [frees, h]

theorem frees_cons_held {b : Block} {r : List Block} (h : b.isFree = false) :
    frees (b :: r) = frees r := by
  simp [frees, h]

theorem mem_frees {bs : List Block} {p : Nat} :
    p ∈ frees bs ↔ ∃ b ∈ bs, b.isFree = true ∧ b.addr = p := by
  simp [frees, and_assoc]

theorem frees_sublist (bs : List Block) : (frees bs).Sublist (bs.map Block.addr) :=
  List.Sublist.map _ List.filter_sublist

theorem length_frees_le (bs : List Block) : (frees bs).length ≤ bs.length := by
  simpa using (frees_sublist bs).length_le

/-- The blocks somebody holds, in address order. -/
def helds (bs : List Block) : List Block := bs.filter fun b => !b.isFree

@[simp] theorem helds_nil : helds [] = [] := rfl

@[simp] theorem helds_append (l r : List Block) : helds (l ++ r) = helds l ++ helds r := by
  simp [helds]

theorem helds_cons_free {b : Block} {r : List Block} (h : b.isFree = true) :
    helds (b :: r) = helds r := by
  simp [helds, h]

theorem helds_cons_held {b : Block} {r : List Block} (h : b.isFree = false) :
    helds (b :: r) = b :: helds r := by
  simp [helds, h]

theorem mem_helds {bs : List Block} {b : Block} : b ∈ helds bs ↔ b ∈ bs ∧ b.isFree = false := by
  simp [helds]

/-! ## Neighbours in the ring -/

section Neighbours

variable (e : Env)

/-- The predecessor in the ring of a place in the list: the last free block before it, or `base`. -/
def predOf (l : List Block) : Nat := (frees l).getLast?.getD e.base

/-- The successor in the ring of a place in the list: the first free block after it, or `base`. -/
def succOf (r : List Block) : Nat := (frees r).headD e.base

theorem cons_frees_eq (l : List Block) : ∃ d, e.base :: frees l = d ++ [predOf e l] := by
  rcases List.eq_nil_or_concat' (frees l) with h | ⟨d, a, h⟩
  · exact ⟨[], by simp [predOf, h]⟩
  · exact ⟨e.base :: d, by simp [predOf, h]⟩

theorem frees_concat_eq (r : List Block) : ∃ t, frees r ++ [e.base] = succOf e r :: t := by
  cases h : frees r with
  | nil => exact ⟨[], by simp [succOf, h]⟩
  | cons a t => exact ⟨t ++ [e.base], by simp [succOf, h]⟩

theorem predOf_mem (l : List Block) : predOf e l ∈ e.base :: frees l := by
  obtain ⟨d, hd⟩ := cons_frees_eq e l
  simp [hd]

theorem succOf_mem (r : List Block) : succOf e r ∈ e.base :: frees r := by
  obtain ⟨t, ht⟩ := frees_concat_eq e r
  have h : succOf e r ∈ frees r ++ [e.base] := by simp [ht]
  simpa [or_comm] using h

theorem predOf_concat_free {l : List Block} {c : Block} (h : c.isFree = true) :
    predOf e (l ++ [c]) = c.addr := by
  simp [predOf, frees_cons_free h]

theorem succOf_cons_free {r : List Block} {c : Block} (h : c.isFree = true) :
    succOf e (c :: r) = c.addr := by
  simp [succOf, frees_cons_free h]

theorem succOf_cons_held {r : List Block} {c : Block} (h : c.isFree = false) :
    succOf e (c :: r) = succOf e r := by
  simp [succOf, frees_cons_held h]

end Neighbours

/-! ## The layout -/

/-- Where the pool may lie: it does not wrap around the address space, and `base` lies outside it
and not at its end. -/
structure Sited (e : Env) (pool : Nat) (poolSize : UInt32) : Prop where
  pool_pos : 0 < pool
  fits : pool + poolSize.toNat < e.range
  beside : e.base + e.hdr ≤ pool ∨ pool + poolSize.toNat < e.base

/-- The pool lies there, and is small enough for sizes of up to two pools not to overflow. -/
structure Placed (e : Env) (pool : Nat) (poolSize : UInt32) : Prop extends
    Sited e pool poolSize where
  room : 2 * poolSize.toNat + 16 * e.hdr < e.range

theorem zynq_placed : Placed Env.zynq 0x100000 640 where
  pool_pos := by decide
  fits := by decide
  beside := by decide
  room := by decide

/-- No two neighbouring blocks are free. -/
def Coalesced (bs : List Block) : Prop :=
  bs.IsChain fun a b => ¬(a.isFree = true ∧ b.isFree = true)

/-- The state `s` is the list of blocks `bs`, which ends at the address `last`. -/
structure Layout (e : Env) (s : State) (last : Nat) (bs : List Block) : Prop where
  /-- The blocks follow each other without gap or overlap. -/
  tiles : Tiles Block.addr (Block.bytes e) s.pool bs last
  /-- They lie in the pool. -/
  inside : last ≤ s.pool + s.poolSize.toNat
  /-- Every header holds the size of its block. -/
  sizes : ∀ b ∈ bs, s.size e b.addr = b.size
  /-- The degenerate block has size 0. -/
  base_size : s.size e e.base = 0
  /-- The free list is circular, in address order, with `base` as its sentinel. -/
  ring : IsRing (s.next e) e.base (frees bs)
  /-- The roving pointer is on it. -/
  freep_mem : s.freep ∈ e.base :: frees bs
  /-- Free blocks are as large as they can be. -/
  coalesced : Coalesced bs

namespace Layout

variable {e : Env} {s : State} {last : Nat} {bs l r : List Block} {b c : Block} {p q : Nat}

theorem bounds (L : Layout e s last bs) (hb : b ∈ bs) :
    s.pool ≤ b.addr ∧ b.addr + e.hdr ≤ b.addr + b.bytes e ∧ b.addr + b.bytes e ≤ last := by
  obtain ⟨h1, h2, h3⟩ := L.tiles.bounds hb
  have h4 : 0 < b.size := Nat.pos_of_mul_pos_right h2
  have h5 : e.hdr ≤ b.size * e.hdr := Nat.le_mul_of_pos_left _ h4
  exact ⟨h1, by rw [Block.bytes]; omega, h3⟩

theorem addr_lt (P : Sited e s.pool s.poolSize) (L : Layout e s last bs) (hb : b ∈ bs) :
    b.addr + b.bytes e < e.range := by
  have h1 := (L.bounds hb).2.2
  have h2 := L.inside
  have h3 := P.fits
  omega

theorem size_lt (P : Sited e s.pool s.poolSize) (L : Layout e s last bs) (hb : b ∈ bs) :
    b.size < e.range := by
  have hbytes : b.size ≤ b.bytes e := Nat.le_mul_of_pos_right _ e.hdr_pos
  have haddr := L.addr_lt P hb
  omega

/-- The end of a block is computed without overflow. -/
theorem ptrAdd_size (P : Sited e s.pool s.poolSize) (L : Layout e s last bs) (hb : b ∈ bs) :
    e.ptrAdd b.addr b.size = b.addr + b.bytes e :=
  Env.ptrAdd_eq (L.addr_lt P hb)

theorem sep_base (P : Sited e s.pool s.poolSize) (L : Layout e s last bs) (hb : b ∈ bs) :
    Sep e e.base b.addr := by
  obtain ⟨h1, h2, h3⟩ := L.bounds hb
  have h4 := L.inside
  rcases P.beside with h | h
  · exact Or.inl (by omega)
  · exact Or.inr (by omega)

/-- Two blocks do not overlap. -/
theorem apart (L : Layout e s last bs) (hb : b ∈ bs) (hc : c ∈ bs) (hne : b ≠ c) :
    b.addr + b.bytes e ≤ c.addr ∨ c.addr + c.bytes e ≤ b.addr := by
  obtain ⟨u, v, rfl⟩ := List.append_of_mem hb
  have hcases : c ∈ u ∨ c ∈ v := by
    rcases List.mem_append.1 hc with h | h
    · exact Or.inl h
    · rcases List.mem_cons.1 h with rfl | h
      · exact absurd rfl hne
      · exact Or.inr h
  exact (L.tiles.apart hcases).symm

theorem sep_blocks (L : Layout e s last bs) (hb : b ∈ bs) (hc : c ∈ bs) (hne : b.addr ≠ c.addr) :
    Sep e b.addr c.addr := by
  have hb' := L.bounds hb
  have hc' := L.bounds hc
  rcases L.apart hb hc (fun h => hne (congrArg Block.addr h)) with h | h
  · exact Or.inl (by omega)
  · exact Or.inr (by omega)

/-- **Headers do not overlap.** -/
theorem sep_heads (P : Sited e s.pool s.poolSize) (L : Layout e s last bs)
    (hp : p ∈ e.base :: bs.map Block.addr) (hq : q ∈ e.base :: bs.map Block.addr) (hne : p ≠ q) :
    Sep e p q := by
  rcases List.mem_cons.1 hp with rfl | hp <;> rcases List.mem_cons.1 hq with rfl | hq
  · exact absurd rfl hne
  · obtain ⟨b, hb, rfl⟩ := List.mem_map.1 hq
    exact L.sep_base P hb
  · obtain ⟨b, hb, rfl⟩ := List.mem_map.1 hp
    exact (L.sep_base P hb).symm
  · obtain ⟨b, hb, rfl⟩ := List.mem_map.1 hp
    obtain ⟨c, hc, rfl⟩ := List.mem_map.1 hq
    exact L.sep_blocks hb hc hne

theorem sorted (L : Layout e s last bs) : (bs.map Block.addr).Pairwise (· < ·) := L.tiles.sorted

theorem frees_sorted (L : Layout e s last bs) : (frees bs).Pairwise (· < ·) :=
  L.sorted.sublist (frees_sublist bs)

theorem lt_of_mem_left (L : Layout e s last (l ++ b :: r)) (hc : c ∈ l) : c.addr < b.addr := by
  have h := L.sorted
  rw [List.map_append, List.map_cons] at h
  exact (List.pairwise_append.1 h).2.2 _ (List.mem_map_of_mem hc) _ (by simp)

theorem lt_of_mem_right (L : Layout e s last (l ++ b :: r)) (hc : c ∈ r) : b.addr < c.addr := by
  have h := L.sorted
  rw [List.map_append, List.map_cons] at h
  exact (List.pairwise_cons.1 (List.pairwise_append.1 h).2.1).1 _ (List.mem_map_of_mem hc)

theorem mem_heads_of_ring (hp : p ∈ e.base :: frees bs) : p ∈ e.base :: bs.map Block.addr := by
  rcases List.mem_cons.1 hp with rfl | hp
  · exact List.mem_cons_self
  · exact List.mem_cons_of_mem _ ((frees_sublist bs).mem hp)

/-- `base` lies on one side of all the blocks. -/
theorem beside (P : Sited e s.pool s.poolSize) (L : Layout e s last bs) :
    Beside e.base (bs.map Block.addr) := by
  have h1 := e.hdr_pos
  have h2 := L.inside
  rcases P.beside with h | h
  · refine Or.inl fun y hy => ?_
    obtain ⟨c, hc, rfl⟩ := List.mem_map.1 hy
    have := L.bounds hc
    omega
  · refine Or.inr fun y hy => ?_
    obtain ⟨c, hc, rfl⟩ := List.mem_map.1 hy
    have := L.bounds hc
    omega

theorem ring_nodup (P : Sited e s.pool s.poolSize) (L : Layout e s last bs) :
    (e.base :: frees bs).Nodup := by
  refine List.nodup_cons.2 ⟨fun h => (L.beside P).notMem ((frees_sublist bs).mem h), ?_⟩
  exact L.frees_sorted.imp fun h => ne_of_lt h

/-- There are no more blocks than bytes in the pool. -/
theorem length_le (L : Layout e s last bs) : bs.length ≤ s.poolSize.toNat := by
  have h1 := L.tiles.length_le
  have h2 := L.inside
  omega

/-- The successor of the predecessor of a place is the successor of the place. -/
theorem next_predOf (hring : IsRing (s.next e) e.base (frees l ++ frees r)) :
    s.next e (predOf e l) = succOf e r := by
  obtain ⟨d, hd⟩ := cons_frees_eq e l
  obtain ⟨t, ht⟩ := frees_concat_eq e r
  have h1 : Linked (s.next e) ((e.base :: frees l) ++ (frees r ++ [e.base])) := by
    simpa [IsRing] using hring
  rw [hd, ht, List.append_assoc, List.singleton_append] at h1
  exact h1.next_eq

/-- The ring is all at valid addresses. -/
theorem ring_lt (P : Sited e s.pool s.poolSize) (L : Layout e s last bs)
    (hp : p ∈ e.base :: frees bs) : p < e.range ∧ 0 < p := by
  have h1 := e.base_lt
  have h2 := e.hdr_pos
  have h3 := e.base_pos
  have h4 := P.pool_pos
  rcases List.mem_cons.1 hp with rfl | hp
  · exact ⟨by omega, h3⟩
  · obtain ⟨c, hc, -, rfl⟩ := mem_frees.1 hp
    have := L.bounds hc
    have := L.addr_lt P hc
    exact ⟨by omega, by omega⟩

/-- What follows the header of a block lies apart from every header. -/
theorem head_apart (P : Sited e s.pool s.poolSize) (L : Layout e s last bs) (hc : c ∈ bs)
    (hq : q ∈ e.base :: bs.map Block.addr) :
    c.addr + c.bytes e ≤ q ∨ q + e.hdr ≤ c.addr + e.hdr := by
  have hcb := L.bounds hc
  have hlast := L.inside
  rcases List.mem_cons.1 hq with rfl | hq
  · rcases P.beside with h | h
    · exact Or.inr (by omega)
    · exact Or.inl (by omega)
  · obtain ⟨b, hb, rfl⟩ := List.mem_map.1 hq
    by_cases hbc : b = c
    · subst hbc
      exact Or.inr (le_refl _)
    · have hbb := L.bounds hb
      rcases L.apart hb hc hbc with h | h
      · exact Or.inr (by omega)
      · exact Or.inl h

/-- The payload of a block lies outside every header. -/
theorem payload_outside (P : Sited e s.pool s.poolSize) (L : Layout e s last bs) (hc : c ∈ bs)
    (hq : q ∈ e.base :: bs.map Block.addr) {x : Nat} (h1 : c.addr + e.hdr ≤ x)
    (h2 : x < c.addr + c.bytes e) : x < q ∨ q + e.hdr ≤ x := by
  rcases L.head_apart P hc hq with h | h
  · exact Or.inl (by omega)
  · exact Or.inr (by omega)

/-- So does every byte that belongs neither to the pool nor to `base`. -/
theorem foreign_outside (L : Layout e s last bs) (hq : q ∈ e.base :: bs.map Block.addr) {x : Nat}
    (h1 : x < e.base ∨ e.base + e.hdr ≤ x)
    (h2 : x < s.pool ∨ s.pool + s.poolSize.toNat ≤ x) : x < q ∨ q + e.hdr ≤ x := by
  rcases List.mem_cons.1 hq with rfl | hq
  · exact h1
  · obtain ⟨b, hb, rfl⟩ := List.mem_map.1 hq
    have hbb := L.bounds hb
    have hlast := L.inside
    rcases h2 with h | h
    · exact Or.inl (by omega)
    · exact Or.inr (by omega)

end Layout

/-! ## What the allocator leaves alone -/

/-- From `s` to `s'` no byte of a held block of `bs` has changed, nor any byte that belongs neither
to the pool nor to `base`, and the session is the same. -/
structure Kept (e : Env) (bs : List Block) (s s' : State) : Prop where
  payload : ∀ c ∈ bs, c.isFree = false → ∀ x, c.addr + e.hdr ≤ x → x < c.addr + c.bytes e →
    s'.mem x = s.mem x
  foreign : ∀ x, (x < e.base ∨ e.base + e.hdr ≤ x) →
    (x < s.pool ∨ s.pool + s.poolSize.toNat ≤ x) → s'.mem x = s.mem x
  statics : s' = { s with mem := s'.mem, freep := s'.freep, poolFreePos := s'.poolFreePos,
                          largestAllocation := s'.largestAllocation }

namespace Kept

variable {e : Env} {s s' s'' : State} {bs bs' : List Block}

theorem refl (s : State) : Kept e bs s s := ⟨fun _ _ _ _ _ _ => rfl, fun _ _ _ => rfl, rfl⟩

theorem pool_eq (h : Kept e bs s s') : s'.pool = s.pool := by rw [h.statics]

theorem poolSize_eq (h : Kept e bs s s') : s'.poolSize = s.poolSize := by rw [h.statics]

theorem sited (h : Kept e bs s s') (P : Sited e s.pool s.poolSize) :
    Sited e s'.pool s'.poolSize := by
  rw [h.pool_eq, h.poolSize_eq]
  exact P

theorem trans (h : Kept e bs s s') (h' : Kept e bs' s' s'')
    (hsub : ∀ c ∈ bs, c.isFree = false → c ∈ bs') : Kept e bs s s'' where
  payload c hc hheld x h1 h2 :=
    (h'.payload c (hsub c hc hheld) hheld x h1 h2).trans (h.payload c hc hheld x h1 h2)
  foreign x h1 h2 :=
    (h'.foreign x h1 (by rw [h.pool_eq, h.poolSize_eq]; exact h2)).trans (h.foreign x h1 h2)
  statics := by rw [h'.statics, h.statics]

end Kept

end Memmgr
end Zedboard
