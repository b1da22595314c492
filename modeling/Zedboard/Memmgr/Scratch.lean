import Zedboard.Memmgr.Shape

/-!
# Scratch blocks

The cipher asks the allocator for scratch blocks of sixteen bytes, two at a time.  Such a block
takes two quanta, header included, so what decides whether a request is served is how many pairs of
quanta there are in the free blocks (`spare`), and whether the pool still has room for a block of
the least size it hands out.  `Serves e s bs k` says that `k` requests in a row will be served
(`Inv.scratch_served`, `Inv.scratch_refused`).
-/

set_option autoImplicit false

namespace Zedboard
namespace Memmgr

/-- The number of scratch blocks that fit into the free blocks. -/
def spare (bs : List Block) : Nat := ((bs.filter Block.isFree).map fun b => b.size / 2).sum

/-- `k` scratch blocks can be allocated. -/
def Serves (e : Env) (s : State) (bs : List Block) (k : Nat) : Prop := Roomy e s 2 ∨ k ≤ spare bs

instance (e : Env) (s : State) (bs : List Block) (k : Nat) : Decidable (Serves e s bs k) :=
  inferInstanceAs (Decidable (_ ∨ _))

@[simp] theorem spare_append (l r : List Block) : spare (l ++ r) = spare l + spare r := by
  simp [spare]

theorem spare_cons_free {b : Block} {r : List Block} (h : b.isFree = true) :
    spare (b :: r) = b.size / 2 + spare r := by
  simp [spare, h]

theorem spare_cons_held {b : Block} {r : List Block} (h : b.isFree = false) :
    spare (b :: r) = spare r := by
  simp [spare, h]

/-- A scratch block takes two quanta. -/
theorem quantas_scratch (e : Env) : quantas e 16 = 2 := by
  have h1 : e.hdr = 20 ∧ e.range = 256 ^ 4 ∨ e.hdr = 32 ∧ e.range = 256 ^ 8 := by
    rw [Env.hdr, Env.range, Env.word]
    cases e.abi
    · exact Or.inl ⟨rfl, rfl⟩
    · exact Or.inr ⟨rfl, rfl⟩
  rw [quantas, Env.ulong]
  rcases h1 with ⟨h1, h2⟩ | ⟨h1, h2⟩
  · rw [h1, h2]
    decide
  · rw [h1, h2]
    decide

theorem spare_carve {e : Env} {n : Nat} {l r : List Block} {b : Block} (hb : b.isFree = true)
    (hle : 2 ≤ b.size) : spare (carve e n 2 l b r) + 1 = spare (l ++ b :: r) := by
  rw [spare_append, spare_cons_free hb, carve]
  split
  · rename_i heq
    rw [spare_append, spare_cons_held rfl, heq]
    omega
  · rw [spare_append, spare_cons_free rfl, spare_cons_held rfl]
    simp only
    omega

theorem le_spare {bs : List Block} {b : Block} (hb : b ∈ bs) (hfree : b.isFree = true) :
    b.size / 2 ≤ spare bs := by
  obtain ⟨l, r, rfl⟩ := List.append_of_mem hb
  rw [spare_append, spare_cons_free hfree]
  omega

theorem spare_eq_zero {bs : List Block} (h : ∀ b ∈ bs, b.isFree = true → b.size < 2) :
    spare bs = 0 := by
  induction bs with
  | nil => rfl
  | cons b bs ih =>
    have hrest := ih fun c hc => h c (List.mem_cons_of_mem _ hc)
    cases hb : b.isFree with
    | false => rw [spare_cons_held hb, hrest]
    | true =>
      have := h b (by simp) hb
      rw [spare_cons_free hb, hrest]
      omega

/-- Merging free blocks loses no room. -/
theorem spare_absorb_le (b : Block) (r : List Block) :
    b.size / 2 + spare r ≤ spare ((absorb b r).1 :: (absorb b r).2) := by
  rw [spare_cons_free (absorb_isFree b r)]
  rcases absorb_cases b r with ⟨c, r', rfl, hc, heq⟩ | ⟨-, heq⟩
  · rw [heq, spare_cons_free hc]
    dsimp only
    omega
  · rw [heq]

theorem spare_join_le {b : Block} (hb : b.isFree = true) (l r : List Block) :
    spare l + spare (b :: r) ≤ spare (join l b r) := by
  rw [spare_cons_free hb]
  rcases join_cases l b r with ⟨l', c, rfl, hc, heq⟩ | ⟨-, heq⟩
  · rw [heq, spare_append, spare_append, spare_cons_free hc, spare_cons_free rfl]
    dsimp only
    have hnil : spare [] = 0 := rfl
    omega
  · rw [heq, spare_append, spare_cons_free hb]

theorem spare_release_le (l : List Block) (b : Block) (r : List Block) :
    spare l + (b.size / 2 + spare r) ≤ spare (release l b r) :=
  (Nat.add_le_add_left (spare_absorb_le b r) _).trans (spare_join_le (absorb_isFree b r) _ _)

/-! ## Taking and giving back -/

/-- The scratch block `p` has been taken, in a pool that was used up to `pos` and now is up to
`pos'`. -/
structure Taken (e : Env) (p pos pos' : Nat) (bs bs' : List Block) : Prop where
  others : heldsBut e p bs' = helds bs
  steady : 1 ≤ spare bs → pos' = pos ∧ spare bs' + 1 = spare bs

/-- The scratch block `p` has been given back. -/
structure Given (e : Env) (p : Nat) (bs bs' : List Block) : Prop where
  others : helds bs' = heldsBut e p bs
  more : spare bs + 1 ≤ spare bs'

theorem Served.taken {e : Env} {s s' : State} {p : Nat} {bs l r : List Block} {b : Block}
    (hs : Served e s s' 16 p bs l b r) :
    Taken e p s.poolFreePos s'.poolFreePos bs (carve e 16 (quantas e 16) l b r) := by
  refine ⟨?_, fun h => ?_⟩
  · have hall : helds (l ++ b :: r) = helds bs := by
      rcases hs.ready with ⟨heq, -⟩ | ⟨-, -, heq, -⟩
      · rw [heq]
      · rw [heq, helds_grow]
    rw [helds_append, helds_cons_free hs.free] at hall
    rw [hs.ptr, ← hall]
    exact heldsBut_eq hs.layout.sorted helds_carve
  · rcases hs.ready with ⟨heq, hpos⟩ | ⟨hsmall, -⟩
    · have hle := hs.enough
      rw [quantas_scratch] at hle ⊢
      exact ⟨hpos, by rw [spare_carve hs.free hle, heq]⟩
    · rw [quantas_scratch] at hsmall
      rw [spare_eq_zero hsmall] at h
      exact absurd h (by decide)

/-- **A scratch block is handed out** when one can be, and then one less can be.  When it is the
last one, it is the end of the free block that is big enough. -/
theorem Inv.scratch_served {e : Env} {S : Session} {bs : List Block} (I : Inv e S bs) (fuel : Nat)
    (P : Placed e S.st.pool S.st.poolSize) (hn : 16 ≤ S.st.poolSize.toNat)
    (hf : 2 * S.st.poolSize.toNat + 2 ≤ fuel) (h : Serves e S.st bs 1) :
    ∃ p s' bs', memmgrAlloc e fuel S.st 16 = some (p, s') ∧ p ≠ 0 ∧
      Inv e ⟨s', (p, 16) :: S.live⟩ bs' ∧ Kept e bs S.st s' ∧
      (Serves e s' bs' 1 ↔ Serves e S.st bs 2) ∧
      (Serves e S.st bs 2 ∨
        ∃ b ∈ bs, b.isFree = true ∧ 2 ≤ b.size ∧ p = b.addr + (b.size - 2) * e.hdr + e.hdr) ∧
      Taken e p S.st.poolFreePos s'.poolFreePos bs bs' := by
  rcases I.healthy.memmgrAlloc 16 fuel P.toSited I.session
      (quantas_no_wrap (I.no_wrap P.toSited hn)) hf with
    ⟨p, s', l, b, r, halloc, hs⟩ | ⟨s', halloc, hs⟩
  · obtain ⟨hp, I'⟩ := I.served P.toSited hn hs
    have hb := hs.enough
    have hready := hs.ready
    have hptr := hs.ptr
    rw [quantas_scratch] at hb hready hptr
    have hcarve := spare_carve (e := e) (n := 16) (l := l) (r := r) hs.free hb
    refine ⟨p, s', carve e 16 (quantas e 16) l b r, halloc, hp, I', hs.kept, ?_, ?_, hs.taken⟩
    · rw [quantas_scratch]
      rcases hready with ⟨heq, hpos⟩ | ⟨-, hroom, heq, -⟩
      · rw [Serves, Serves, Roomy, Roomy, hpos, hs.kept.poolSize_eq, ← heq]
        exact or_congr_right (by omega)
      · obtain ⟨c, hc, hfree, hbig⟩ := exists_grow (S.st.pool + S.st.poolFreePos) 2 bs
        have hspare := le_spare hc hfree
        rw [heq] at hcarve
        have hgrowth : growth 2 = 16 := rfl
        exact ⟨fun _ => Or.inl hroom, fun _ => Or.inr (by omega)⟩
    · rcases hready with ⟨heq, -⟩ | ⟨-, hroom, -⟩
      · exact Or.inr ⟨b, by rw [← heq]; simp, hs.free, hb, hptr⟩
      · exact Or.inl (Or.inl hroom)
  · have hsmall := hs.small
    have hfull := hs.full
    rw [quantas_scratch] at hsmall hfull
    rcases h with h | h
    · exact absurd h hfull
    · rw [spare_eq_zero hsmall] at h
      exact absurd h (by decide)

/-- **It is refused** when none can be handed out. -/
theorem Inv.scratch_refused {e : Env} {S : Session} {bs : List Block} (I : Inv e S bs) (fuel : Nat)
    (P : Placed e S.st.pool S.st.poolSize) (hn : 16 ≤ S.st.poolSize.toNat)
    (hf : 2 * S.st.poolSize.toNat + 2 ≤ fuel) (h : ¬Serves e S.st bs 1) :
    ∃ s', memmgrAlloc e fuel S.st 16 = some (0, s') ∧ Inv e ⟨s', S.live⟩ bs ∧
      Kept e bs S.st s' := by
  rcases I.healthy.memmgrAlloc 16 fuel P.toSited I.session
      (quantas_no_wrap (I.no_wrap P.toSited hn)) hf with
    ⟨p, s', l, b, r, halloc, hs⟩ | ⟨s', halloc, hs⟩
  · have hb := hs.enough
    have hready := hs.ready
    rw [quantas_scratch] at hb hready
    have hcarve := spare_carve (e := e) (n := 16) (l := l) (r := r) hs.free hb
    rcases hready with ⟨heq, -⟩ | ⟨-, hroom, -⟩
    · exact absurd (Or.inr (by rw [← heq]; omega)) h
    · exact absurd (Or.inl hroom) h
  · exact ⟨s', halloc, I.refused P.toSited hs, hs.kept⟩

/-- **A scratch block is given back.** -/
theorem Inv.scratch_given {e : Env} {S : Session} {bs : List Block} {p : Nat} (I : Inv e S bs)
    (fuel : Nat) (hp : (p, 16) ∈ S.live) (hf : S.st.poolSize.toNat < fuel) :
    ∃ s' bs', memmgrFree e fuel S.st p = some s' ∧ Inv e ⟨s', S.live.erase (p, 16)⟩ bs' ∧
      Kept e bs S.st s' ∧ s'.poolFreePos = S.st.poolFreePos ∧ Given e p bs bs' := by
  obtain ⟨l, b, r, rfl, hreq, hbp, hlen⟩ := I.exists_block hp
  obtain ⟨-, L⟩ := I.layout (Or.inl (by simp))
  obtain ⟨s', hfree, I', K, hpos⟩ := I.toAccounted.released fuel hreq hbp hf
  have hheld : b.isFree = false := by rw [Block.isFree, hreq]; rfl
  have hsize : 2 ≤ b.size := by
    by_contra hlt
    have h1 : b.size * e.hdr ≤ 1 * e.hdr := Nat.mul_le_mul_right _ (by omega)
    rw [Block.bytes] at hlen
    omega
  refine ⟨s', release l b r, hfree, I.keep I' K.pool_eq K.poolSize_eq, K, hpos, ?_, ?_⟩
  · rw [helds_release, ← hbp]
    exact (heldsBut_eq L.sorted (by rw [helds_append, helds_cons_held hheld])).symm
  · have h1 := spare_release_le l b r
    rw [spare_append, spare_cons_held hheld]
    omega

/-- Two scratch blocks have been taken and given back: there are two to be had, and if there were
two before, the heap is the same. -/
structure Restored (bs bs' : List Block) (pos pos' : Nat) : Prop where
  more : 2 ≤ spare bs'
  same : 2 ≤ spare bs → bs' = bs ∧ pos' = pos

/-- **Taking two scratch blocks and giving them back** restores the heap. -/
theorem Inv.restored {e : Env} {S S' : Session} {bs bs₁ bs₂ bs₃ bs₄ : List Block} {t u pos : Nat}
    (I : Inv e S bs) (I' : Inv e S' bs₄) (hpool : S'.st.pool = S.st.pool)
    (T₁ : Taken e t S.st.poolFreePos pos bs bs₁) (T₂ : Taken e u pos S'.st.poolFreePos bs₁ bs₂)
    (G₁ : Given e t bs₂ bs₃) (G₂ : Given e u bs₃ bs₄) :
    Restored bs bs₄ S.st.poolFreePos S'.st.poolFreePos := by
  have hmore₁ := G₁.more
  have hmore₂ := G₂.more
  refine ⟨by omega, fun h => ?_⟩
  obtain ⟨hpos₁, hspare⟩ := T₁.steady (by omega)
  obtain ⟨hpos₂, -⟩ := T₂.steady (by omega)
  have hpos := hpos₂.trans hpos₁
  have hheld : helds bs₄ = helds bs := by
    rw [G₂.others, heldsBut, G₁.others, heldsBut_comm, T₂.others]
    exact T₁.others
  obtain ⟨htiles, -, -, hcoal⟩ := I.tiles
  obtain ⟨htiles', -, -, hcoal'⟩ := I'.tiles
  rw [hpool, hpos] at htiles'
  exact ⟨eq_of_helds htiles' htiles hcoal' hcoal hheld, hpos⟩

end Memmgr
end Zedboard
