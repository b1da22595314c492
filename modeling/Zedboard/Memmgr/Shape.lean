import Zedboard.Memmgr.Runs

/-!
# What determines a heap

A heap of a given length is determined by the blocks that are held: what is between them is free,
and free blocks are as large as they can be (`eq_of_helds`).  So an operation and its opposite
restore the heap if they restore the held blocks (`heldsBut`), wherever the search for a block
began.

`freeQuanta` is the free part of a heap as one who walks the free list sees it.
-/

set_option autoImplicit false

namespace Zedboard
namespace Memmgr

/-! ## Held and free blocks -/

section Shape

variable {e : Env} {a last p : Nat} {b c : Block} {bs bs' : List Block}

/-- Blocks are whole numbers of headers long. -/
theorem tiles_multiple : ∀ {bs : List Block} {a : Nat},
    Tiles Block.addr (Block.bytes e) a bs last → ∃ k, last = a + k * e.hdr
  | [], a, h => ⟨0, by rw [Nat.zero_mul]; exact (tiles_nil.1 h).symm⟩
  | b :: bs, a, h => by
    obtain ⟨-, -, hrest⟩ := tiles_cons.1 h
    obtain ⟨k, hk⟩ := tiles_multiple hrest
    exact ⟨b.size + k, by rw [hk, Block.bytes, Nat.add_mul, Nat.add_assoc]⟩

/-- A free block ends where the next held one begins. -/
theorem Coalesced.free_end (hc : Coalesced (b :: bs)) (hb : b.isFree = true)
    (h : Tiles Block.addr (Block.bytes e) a (b :: bs) last) :
    a + b.bytes e = ((helds bs).head?.map Block.addr).getD last := by
  obtain ⟨-, -, hrest⟩ := tiles_cons.1 h
  cases bs with
  | nil => exact tiles_nil.1 hrest
  | cons c bs =>
    have hheld : c.isFree = false := by
      have h1 := (List.isChain_cons_cons.1 hc).1
      rwa [hb, and_iff_right rfl, Bool.not_eq_true] at h1
    rw [helds_cons_held hheld]
    exact (tiles_cons.1 hrest).1.symm

/-- Nothing else begins where the first block does. -/
theorem first_notMem (h : Tiles Block.addr (Block.bytes e) a (c :: bs) last) (hb : b.addr = a) :
    b ∉ bs := by
  obtain ⟨-, hpos, hrest⟩ := tiles_cons.1 h
  intro hmem
  have := (hrest.bounds hmem).1
  omega

theorem first_eq (h : Tiles Block.addr (Block.bytes e) a (b :: bs) last)
    (h' : Tiles Block.addr (Block.bytes e) a (c :: bs') last) (hcoal : Coalesced (b :: bs))
    (hcoal' : Coalesced (c :: bs')) (hheld : helds (b :: bs) = helds (c :: bs')) : b = c := by
  have hb := (tiles_cons.1 h).1
  have hc := (tiles_cons.1 h').1
  cases hbfree : b.isFree <;> cases hcfree : c.isFree
  · rw [helds_cons_held hbfree, helds_cons_held hcfree] at hheld
    exact (List.cons.inj hheld).1
  · rw [helds_cons_held hbfree, helds_cons_free hcfree] at hheld
    have hmem : b ∈ helds bs' := by rw [← hheld]; exact List.mem_cons_self
    exact absurd (mem_helds.1 hmem).1 (first_notMem h' hb)
  · rw [helds_cons_free hbfree, helds_cons_held hcfree] at hheld
    have hmem : c ∈ helds bs := by rw [hheld]; exact List.mem_cons_self
    exact absurd (mem_helds.1 hmem).1 (first_notMem h hc)
  · rw [helds_cons_free hbfree, helds_cons_free hcfree] at hheld
    have hend := hcoal.free_end hbfree h
    have hend' := hcoal'.free_end hcfree h'
    rw [← hheld, ← hend] at hend'
    have hsize : c.size = b.size :=
      Nat.eq_of_mul_eq_mul_right e.hdr_pos (Nat.add_left_cancel hend')
    obtain ⟨baddr, bsize, breq⟩ := b
    obtain ⟨caddr, csize, creq⟩ := c
    obtain rfl : breq = none := by simpa [Block.isFree] using hbfree
    obtain rfl : creq = none := by simpa [Block.isFree] using hcfree
    exact congrArg₂ (fun a k => (⟨a, k, none⟩ : Block)) (hb.trans hc.symm) hsize.symm

/-- **The held blocks determine the free ones**, because free blocks are as large as they can be. -/
theorem eq_of_helds : ∀ {bs bs' : List Block} {a : Nat},
    Tiles Block.addr (Block.bytes e) a bs last → Tiles Block.addr (Block.bytes e) a bs' last →
    Coalesced bs → Coalesced bs' → helds bs = helds bs' → bs = bs'
  | [], [], _, _, _, _, _, _ => rfl
  | [], c :: bs', a, h, h', _, _, _ => by
    have h1 := tiles_nil.1 h
    obtain ⟨-, hpos, hrest⟩ := tiles_cons.1 h'
    have := hrest.le
    omega
  | b :: bs, [], a, h, h', _, _, _ => by
    have h1 := tiles_nil.1 h'
    obtain ⟨-, hpos, hrest⟩ := tiles_cons.1 h
    have := hrest.le
    omega
  | b :: bs, c :: bs', a, h, h', hcoal, hcoal', hheld => by
    obtain rfl := first_eq h h' hcoal hcoal' hheld
    have hrest : helds bs = helds bs' := by
      cases hb : b.isFree with
      | true => rwa [helds_cons_free hb, helds_cons_free hb] at hheld
      | false =>
        rw [helds_cons_held hb, helds_cons_held hb] at hheld
        exact (List.cons.inj hheld).2
    rw [eq_of_helds (tiles_cons.1 h).2.2 (tiles_cons.1 h').2.2 hcoal.tail hcoal'.tail hrest]

/-- The held blocks but the one with the payload `p`. -/
def heldsBut (e : Env) (p : Nat) (bs : List Block) : List Block :=
  (helds bs).filter fun b => b.addr + e.hdr ≠ p

theorem heldsBut_comm (q : Nat) : (heldsBut e p bs).filter (fun b => b.addr + e.hdr ≠ q) =
    (heldsBut e q bs).filter fun b => b.addr + e.hdr ≠ p := by
  rw [heldsBut, heldsBut, List.filter_filter, List.filter_filter]
  exact List.filter_congr fun b _ => Bool.and_comm _ _

theorem heldsBut_eq {l r : List Block} (hsort : (bs.map Block.addr).Pairwise (· < ·))
    (h : helds bs = l ++ b :: r) : heldsBut e (b.addr + e.hdr) bs = l ++ r := by
  have hnodup : ((l ++ b :: r).map Block.addr).Nodup := by
    rw [← h]
    exact (hsort.imp ne_of_lt).sublist (List.filter_sublist.map _)
  rw [List.map_append, List.map_cons, List.nodup_middle, List.nodup_cons,
    ← List.map_append] at hnodup
  have hrest : (l ++ r).filter (fun c => c.addr + e.hdr ≠ b.addr + e.hdr) = l ++ r := by
    refine List.filter_eq_self.2 fun c hc => ?_
    have hne : c.addr ≠ b.addr := fun heq => hnodup.1 (heq ▸ List.mem_map_of_mem hc)
    simpa using hne
  rw [heldsBut, h, List.filter_append, List.filter_cons_of_neg (by simp), ← List.filter_append,
    hrest]

end Shape

/-! ## The free quanta -/

/-- The addresses of the quanta of the blocks on the free list. -/
def freeQuanta (e : Env) (s : State) : Set Nat :=
  {q | s.freep ≠ 0 ∧ ∃ p k, Relation.ReflTransGen (fun x y => s.next e x = y) s.freep p ∧
    k < s.size e p ∧ q = p + k * e.hdr}

/-- They are those of the free blocks. -/
theorem Layout.mem_freeQuanta {e : Env} {s : State} {last q : Nat} {bs : List Block}
    (P : Sited e s.pool s.poolSize) (L : Layout e s last bs) :
    q ∈ freeQuanta e s ↔
      ∃ b ∈ bs, b.isFree = true ∧ ∃ k, k < b.size ∧ q = b.addr + k * e.hdr := by
  have hstarted := (L.ring_lt P L.freep_mem).2.ne'
  constructor
  · rintro ⟨-, p, k, hreach, hk, rfl⟩
    rcases List.mem_cons.1 ((L.ring.reach_iff L.freep_mem).1 hreach) with rfl | hp
    · rw [L.base_size] at hk
      exact absurd hk (Nat.not_lt_zero k)
    · obtain ⟨b, hb, hfree, rfl⟩ := mem_frees.1 hp
      rw [L.sizes b hb] at hk
      exact ⟨b, hb, hfree, k, hk, rfl⟩
  · rintro ⟨b, hb, hfree, k, hk, rfl⟩
    refine ⟨hstarted, b.addr, k, (L.ring.reach_iff L.freep_mem).2 ?_, ?_, rfl⟩
    · exact List.mem_cons_of_mem _ (mem_frees.2 ⟨b, hb, hfree, rfl⟩)
    · rwa [L.sizes b hb]

/-- Two heaps of the same blocks have the same free quanta. -/
theorem Layout.freeQuanta_eq {e : Env} {s s' : State} {last last' : Nat} {bs : List Block}
    (P : Sited e s.pool s.poolSize) (P' : Sited e s'.pool s'.poolSize) (L : Layout e s last bs)
    (L' : Layout e s' last' bs) : freeQuanta e s' = freeQuanta e s :=
  Set.ext fun _ => (L'.mem_freeQuanta P').trans (L.mem_freeQuanta P).symm

end Memmgr
end Zedboard
