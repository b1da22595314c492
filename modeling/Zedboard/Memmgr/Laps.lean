import Zedboard.Memmgr.Runs

/-!
# The loops end

The free list is a ring, and neither the scan of `memmgr_free` nor the search of `memmgr_alloc` has
a mark to stop at.  A lap is what they see until `freep` comes round again, and its length is the
fuel they get here:

* the scan ends within one lap;
* the search ends within one lap too, or it comes back to `freep`, the pool grows, and it ends
  within one lap of the new ring (`loops_end`).

Where `base` begins right behind the pool a block can be its own successor, and the scan goes on for
ever (`loops_end_behind`).
-/

set_option autoImplicit false

namespace Zedboard
namespace Memmgr

/-- The members of the free list as they are met from `freep` on, until `freep` comes round
again. -/
def IsLap (e : Env) (s : State) (l : List Nat) : Prop :=
  lap (s.next e) s.freep l.length s.freep = some l

/-- How the search for a request of `n` bytes ends from the state `s`, of which `l` is a lap. -/
inductive SearchEnds (e : Env) (n : Nat) (s : State) (l : List Nat) : Prop
  /-- Within the lap, and what the pool has given stays as it is. -/
  | first {p : Nat} {s' : State}
      (ends : allocLoop e l.length n (quantas e n) l.length s s.freep (s.next e s.freep) =
        some (p, s'))
      (pos : s'.poolFreePos = s.poolFreePos)
  /-- At the end of the lap the pool grows, and the search ends within one lap from there. -/
  | second {q p : Nat} {s₁ s' : State} {l₁ : List Nat}
      (grows : getMemFromPool e l.length s (quantas e n) = some (q, s₁))
      (more : s.poolFreePos < s₁.poolFreePos)
      (back : ∀ fuel, allocLoop e l.length n (quantas e n) (l.length + fuel) s s.freep
        (s.next e s.freep) = allocLoop e l.length n (quantas e n) fuel s₁ q (s₁.next e q))
      (lap : IsLap e s₁ l₁)
      (ends : allocLoop e l.length n (quantas e n) l₁.length s₁ q (s₁.next e q) = some (p, s'))
      (pos : s'.poolFreePos = s₁.poolFreePos)

namespace Layout

variable {e : Env} {s : State} {last n : Nat} {bs : List Block}

/-- A lap has as many members as there are free blocks, and `base`. -/
theorem exists_isLap (P : Sited e s.pool s.poolSize) (L : Layout e s last bs) :
    ∃ l, IsLap e s l ∧ l.length = (frees bs).length + 1 := by
  obtain ⟨t, hring, hperm⟩ := L.ring.exists_rotation L.freep_mem
  have hnd := hperm.nodup_iff.2 (L.ring_nodup P)
  exact ⟨s.freep :: t, hring.lap_eq hnd (Nat.lt_succ_self _), hperm.length_eq⟩

/-- If some free block is large enough the search finds one within a lap. -/
theorem exists_found {l : List Nat} (P : Sited e s.pool s.poolSize) (L : Layout e s last bs)
    (hbig : ∃ c ∈ bs, c.isFree = true ∧ quantas e n ≤ c.size)
    (hlen : l.length = (frees bs).length + 1) (scanFuel : Nat) :
    ∃ p s', Memmgr.allocLoop e scanFuel n (quantas e n) l.length s s.freep
        (s.next e s.freep) = some (p, s') ∧
      s'.poolFreePos = s.poolFreePos := by
  obtain ⟨u, b, r, prevp, rfl, H, hloop⟩ := L.exists_hit P quantas_pos hbig
  obtain ⟨s', htake, -, -, hpos, -⟩ :=
    L.take (n := n) P H.free quantas_pos H.enough H.prev_mem H.next
  exact ⟨_, s', (hloop (by omega)).trans (congrArg some htake), hpos⟩

/-- **The search ends.**  If some free block is large enough it finds one in the first lap;
otherwise it asks for more, and when the pool has grown some free block is large enough. -/
theorem searchEnds (P : Sited e s.pool s.poolSize) (L : Layout e s (s.pool + s.poolFreePos) bs)
    (hno : s.poolFreePos + growth (quantas e n) * e.hdr < e.range) :
    ∃ l, IsLap e s l ∧ SearchEnds e n s l := by
  obtain ⟨l, hlap, hlen⟩ := L.exists_isLap P
  refine ⟨l, hlap, ?_⟩
  rcases enough_or_small (quantas e n) bs with hbig | hsmall
  · obtain ⟨p, s', hend, hpos⟩ := L.exists_found P hbig hlen l.length
    exact .first hend hpos
  have hmissed := fun fuel => L.allocLoop_missed n fuel l.length P quantas_pos hsmall
  have hfuel : ∀ fuel, l.length + fuel = fuel + 1 + (frees bs).length := fun fuel => by omega
  by_cases hroom : Roomy e s (quantas e n)
  · obtain ⟨s₁, hget, L₁, K₁, hfreep, hpos₁, -⟩ := L.getMemFromPool l.length P hno hroom (by omega)
    have P₁ := K₁.sited P
    obtain ⟨l₁, hlap₁, hlen₁⟩ := L₁.exists_isLap P₁
    obtain ⟨p, s', hend, hpos⟩ := L₁.exists_found P₁ (exists_grow_enough ..) hlen₁ l.length
    have hq : predOf e bs ≠ 0 := by
      rw [← hfreep]
      exact (L₁.ring_lt P₁ L₁.freep_mem).2.ne'
    have hmore : 0 < growth (quantas e n) * e.hdr := Nat.mul_pos (growth_pos _) e.hdr_pos
    rw [hfreep] at hend
    refine .second hget (by omega) (fun fuel => ?_) hlap₁ hend hpos
    rw [hfuel, hmissed, hget]
    exact if_neg hq
  · have hget : Memmgr.getMemFromPool e l.length s (quantas e n) = some (0, s) :=
      getMemFromPool_refused l.length P.pool_pos.ne' fun h => hroom ((admits_iff hno).1 h)
    have hend := hmissed 0
    rw [← hfuel, Nat.add_zero, hget] at hend
    exact .first hend rfl

/-- The scan for the place of a held block ends within a lap. -/
theorem scanEnds {l r : List Block} {b : Block} (P : Sited e s.pool s.poolSize)
    (L : Layout e s last (l ++ b :: r)) (hb : b.isFree = false) :
    ∃ lp, IsLap e s lp ∧ (Memmgr.memmgrFree e lp.length s (b.addr + e.hdr)).isSome := by
  obtain ⟨lp, hlap, hlen⟩ := L.exists_isLap P
  rw [frees_middle hb] at hlen
  obtain ⟨s', hfree, -⟩ := L.memmgrFree P hb (show (frees l ++ frees r).length < lp.length by omega)
  exact ⟨lp, hlap, by rw [hfree]; rfl⟩

end Layout

/-- **The loops end.**  In every reachable session the scan for a pointer that a client holds ends
within one lap of the free list, and the search for a request that does not overflow within two, one
before the pool grows and one after. -/
theorem loops_end {e : Env} {s : State} {buffer : Nat} {length baseAddress : UInt32} {S : Session}
    (hs : s.session = 0) (hp : buffer = 0 ∨ Placed e buffer length)
    (h : Reachable e s buffer length baseAddress S) :
    (∀ p n, (p, n) ∈ S.live →
      ∃ l, IsLap e S.st l ∧ (memmgrFree e l.length S.st p).isSome) ∧
    ∀ n, (n ≤ S.st.poolSize.toNat ∨
        S.st.poolFreePos + growth (exactQuantas e n) * e.hdr < e.range) →
      (S.st.pool = 0 ∧ ∀ fuel, memmgrAlloc e fuel S.st n = some (0, S.st)) ∨
      ((∀ fuel, memmgrAlloc e fuel S.st n =
          allocLoop e fuel n (quantas e n) fuel (startList e S.st) (startList e S.st).freep
            ((startList e S.st).next e (startList e S.st).freep)) ∧
        ∃ l, IsLap e (startList e S.st) l ∧ SearchEnds e n (startList e S.st) l) := by
  obtain ⟨bs, I⟩ := h.inv hs hp
  refine ⟨fun p n hlive => ?_, fun n hn => ?_⟩
  · obtain ⟨l, b, r, rfl, hreq, rfl, -⟩ := I.exists_block hlive
    obtain ⟨P, L⟩ := I.layout (Or.inl (by simp))
    exact L.scanEnds P (by rw [Block.isFree, hreq]; rfl)
  · rcases I.place with ⟨hpool, -⟩ | P
    · refine Or.inl ⟨hpool, fun fuel => ?_⟩
      rw [memmgrAlloc, if_pos hpool]
    · obtain ⟨L, K, hpos, -⟩ := I.healthy.start P
      have hno := quantas_no_wrap (hn.elim (I.no_wrap P) id)
      rw [← hpos] at hno
      refine Or.inr ⟨fun fuel => ?_, L.searchEnds (K.sited P) hno⟩
      rw [memmgrAlloc, if_neg P.pool_pos.ne', if_neg I.session]

/-- In a pool with a held block the scan for it ends. -/
theorem loops_end_zynq : ∃ S,
    Reachable Env.zynq (State.loaded fun _ => 0) 0x100000 640 0x1f410000 S ∧
    S.live = [(0x1000f0, 40)] ∧
    ∃ l, IsLap Env.zynq S.st l ∧ (memmgrFree Env.zynq l.length S.st 0x1000f0).isSome := by
  obtain ⟨S, hS, hlive⟩ := zynq_reachable
  have hends := (loops_end rfl (Or.inr zynq_placed) hS).1 0x1000f0 40
  rw [hlive] at hends
  exact ⟨S, hS, hlive, hends (List.mem_singleton.2 rfl)⟩

/-- **The scan for a pointer that a client holds does not end** where `base` lies directly behind
the pool. -/
theorem loops_end_behind : ∃ S, BehindReachable S ∧ (0x100014, 300) ∈ S.live ∧
    ∀ fuel, memmgrFree behind fuel S.st 0x100014 = none := by
  obtain ⟨s₁, s₂, s₃, s₄, -, -, hS, -, -, hpool, hfreep, hnext⟩ := behind_run
  refine ⟨_, hS, List.mem_singleton.2 rfl, fun fuel => ?_⟩
  show memmgrFree behind fuel s₃ 0x100014 = none
  have hblock : behind.ptrPred 0x100014 = 0x100000 := by decide
  have htest : stops (s₃.next behind) 0x100000 0x100000 = false := by
    rw [stops, hnext]
    decide
  rw [memmgrFree, hpool, hfreep, hblock]
  dsimp only
  rw [seek_self hnext htest]
  rfl

end Memmgr
end Zedboard
