import Zedboard.Memmgr.Layout

/-!
# Freeing a block

`release` is what `memmgr_free` means on the list of blocks: the block becomes free and is merged
with its free neighbours.  `Layout.memmgrFree` shows that the source does exactly that, from every
position of the roving pointer.

The proof follows the source.  The scan ends at the predecessor (`Layout.scan_eq`); the first
conditional merges with the block above (`Layout.absorb_step`), which `absorb` describes, and the
second one either links the block in or merges it with the block below.
-/

set_option autoImplicit false

namespace Zedboard
namespace Memmgr

/-- More fuel does not change the result. -/
theorem memmgrFree_mono {e : Env} {s s' : State} {ap fuel fuel' : Nat}
    (h : memmgrFree e fuel s ap = some s') (hle : fuel ≤ fuel') :
    memmgrFree e fuel' s ap = some s' := by
  rw [memmgrFree] at h ⊢
  split at h
  · rename_i hpool
    rwa [if_pos hpool]
  · rename_i hpool
    rw [if_neg hpool]
    split at h
    · rename_i hap
      rwa [if_pos hap]
    · rename_i hap
      rw [if_neg hap]
      dsimp only at h ⊢
      cases hseek : seek (s.next e) (stops (s.next e) (e.ptrPred ap)) fuel s.freep with
      | none => rw [hseek] at h; exact absurd h (by simp)
      | some q => rw [hseek] at h; rwa [seek_mono hseek hle]

/-! ## The effect on the list of blocks -/

/-- The block `b`, freed and merged with the first block of `r` if that is free, and what is left
of `r`. -/
def absorb (b : Block) : List Block → Block × List Block
  | [] => (⟨b.addr, b.size, none⟩, [])
  | c :: r =>
    if c.isFree then (⟨b.addr, b.size + c.size, none⟩, r) else (⟨b.addr, b.size, none⟩, c :: r)

/-- Put the free block `b` between `l` and `r`, merged with the last block of `l` if that is
free. -/
def join (l : List Block) (b : Block) (r : List Block) : List Block :=
  match l.getLast? with
  | none => b :: r
  | some c => if c.isFree then l.dropLast ++ ⟨c.addr, c.size + b.size, none⟩ :: r else l ++ b :: r

/-- The blocks after `b`, between `l` and `r`, has been freed. -/
def release (l : List Block) (b : Block) (r : List Block) : List Block :=
  join l (absorb b r).1 (absorb b r).2

theorem absorb_addr (b : Block) (r : List Block) : (absorb b r).1.addr = b.addr := by
  cases r with
  | nil => rfl
  | cons c r =>
    rw [absorb]
    split <;> rfl

theorem absorb_isFree (b : Block) (r : List Block) : (absorb b r).1.isFree = true := by
  cases r with
  | nil => rfl
  | cons c r =>
    rw [absorb]
    split <;> rfl

theorem join_concat_free {l r : List Block} {b c : Block} (h : c.isFree = true) :
    join (l ++ [c]) b r = l ++ ⟨c.addr, c.size + b.size, none⟩ :: r := by
  simp [join, h]

theorem join_concat_held {l r : List Block} {b c : Block} (h : c.isFree = false) :
    join (l ++ [c]) b r = l ++ c :: b :: r := by
  simp [join, h]

/-- Behind a block that is held, or at the beginning, the freed block is linked in. -/
theorem release_of_held {l r : List Block} {b : Block}
    (hl : l = [] ∨ ∃ l' c, l = l' ++ [c] ∧ c.isFree = false) :
    release l b r = l ++ (absorb b r).1 :: (absorb b r).2 := by
  rcases hl with rfl | ⟨l', c, rfl, hc⟩
  · rfl
  · rw [release, join_concat_held hc]
    simp

/-- The two ways a list of blocks can end, seen from the block that is put behind it. -/
theorem join_cases (l : List Block) (b : Block) (r : List Block) :
    (∃ l' c, l = l' ++ [c] ∧ c.isFree = true ∧
      join l b r = l' ++ ⟨c.addr, c.size + b.size, none⟩ :: r) ∨
    ((l = [] ∨ ∃ l' c, l = l' ++ [c] ∧ c.isFree = false) ∧ join l b r = l ++ b :: r) := by
  rcases List.eq_nil_or_concat' l with rfl | ⟨l', c, rfl⟩
  · exact Or.inr ⟨Or.inl rfl, rfl⟩
  · cases hc : c.isFree with
    | true => exact Or.inl ⟨l', c, rfl, hc, join_concat_free hc⟩
    | false => exact Or.inr ⟨Or.inr ⟨l', c, rfl, hc⟩, by simp [join_concat_held hc]⟩

/-- The two ways a list of blocks can begin, seen from the block that is put before it. -/
theorem absorb_cases (b : Block) (r : List Block) :
    (∃ c r', r = c :: r' ∧ c.isFree = true ∧ absorb b r = (⟨b.addr, b.size + c.size, none⟩, r')) ∨
    ((r = [] ∨ ∃ c r', r = c :: r' ∧ c.isFree = false) ∧
      absorb b r = (⟨b.addr, b.size, none⟩, r)) := by
  cases r with
  | nil => exact Or.inr ⟨Or.inl rfl, rfl⟩
  | cons c r' =>
    cases hc : c.isFree with
    | true => exact Or.inl ⟨c, r', rfl, hc, by simp [absorb, hc]⟩
    | false => exact Or.inr ⟨Or.inr ⟨c, r', rfl, hc⟩, by simp [absorb, hc]⟩

section

variable {e : Env} {l r : List Block} {b : Block} {a last : Nat}

theorem absorb_tiles (h : Tiles Block.addr (Block.bytes e) a (b :: r) last) :
    Tiles Block.addr (Block.bytes e) a ((absorb b r).1 :: (absorb b r).2) last := by
  rcases absorb_cases b r with ⟨c, r', rfl, -, heq⟩ | ⟨-, heq⟩
  · obtain ⟨h1, h2, h3, h4, h5⟩ := h
    rw [heq]
    refine ⟨h1, ?_, ?_⟩
    · simp only [Block.bytes, Nat.add_mul] at h2 ⊢
      omega
    · simp only [Block.bytes, Nat.add_mul, ← Nat.add_assoc] at h5 ⊢
      exact h5
  · rw [heq]
    exact h

theorem join_tiles (h : Tiles Block.addr (Block.bytes e) a (l ++ b :: r) last) :
    Tiles Block.addr (Block.bytes e) a (join l b r) last := by
  rcases join_cases l b r with ⟨l', c, rfl, -, heq⟩ | ⟨-, heq⟩
  · rw [List.append_assoc, List.singleton_append, tiles_append_cons] at h
    obtain ⟨h1, h2, h3, h4, h5⟩ := h
    rw [heq, tiles_append_cons]
    refine ⟨h1, ?_, ?_⟩
    · simp only [Block.bytes, Nat.add_mul] at h2 ⊢
      omega
    · simp only [Block.bytes, Nat.add_mul, ← Nat.add_assoc] at h5 ⊢
      exact h5
  · rw [heq]
    exact h

theorem release_tiles (h : Tiles Block.addr (Block.bytes e) a (l ++ b :: r) last) :
    Tiles Block.addr (Block.bytes e) a (release l b r) last := by
  refine join_tiles ?_
  rw [tiles_append] at h ⊢
  obtain ⟨c, h1, h2⟩ := h
  exact ⟨c, h1, absorb_tiles h2⟩

/-- Only the head of the list of later blocks is absorbed. -/
theorem absorb_suffix (b : Block) (r : List Block) : (absorb b r).2 <:+ r := by
  rcases absorb_cases b r with ⟨c, r', rfl, -, heq⟩ | ⟨-, heq⟩
  · rw [heq]
    exact List.suffix_cons c r'
  · exact ⟨[], by rw [List.nil_append, heq]⟩

/-- What follows the freed block is not free. -/
theorem absorb_head_held (h : Coalesced (b :: r)) :
    ∀ c ∈ (absorb b r).2.head?, c.isFree = false := by
  intro d hd
  rcases absorb_cases b r with ⟨c, r', rfl, hc, heq⟩ | ⟨hr, heq⟩
  · rw [heq] at hd
    cases r' with
    | nil => simp at hd
    | cons x r' =>
      obtain rfl : x = d := by simpa using hd
      have h1 := (List.isChain_cons_cons.1 (List.isChain_cons_cons.1 h).2).1
      rw [← Bool.not_eq_true]
      exact fun hx => h1 ⟨hc, hx⟩
  · rw [heq] at hd
    rcases hr with rfl | ⟨c, r', rfl, hc⟩
    · simp at hd
    · obtain rfl : c = d := by simpa using hd
      exact hc

theorem release_coalesced (h : Coalesced (l ++ b :: r)) : Coalesced (release l b r) := by
  have hr : Coalesced (b :: r) := List.IsChain.right_of_append h
  have hhead := absorb_head_held hr
  have htail : Coalesced (absorb b r).2 := List.IsChain.suffix hr
    ((absorb_suffix b r).trans (List.suffix_cons b r))
  have hcons : ∀ x : Block, Coalesced (x :: (absorb b r).2) := fun x =>
    List.isChain_cons.2 ⟨fun c hc hx => by simp [hhead c hc] at hx, htail⟩
  rw [release]
  rcases join_cases l (absorb b r).1 (absorb b r).2 with ⟨l', c, rfl, hc, heq⟩ | ⟨hl, heq⟩
  · have hl' : Coalesced (l' ++ [c]) := List.IsChain.left_of_append h
    rw [heq]
    refine List.isChain_append.2 ⟨List.IsChain.left_of_append hl', hcons _, ?_⟩
    intro x hx y hy hxy
    obtain rfl : _ = y := by simpa using hy
    exact (List.isChain_append.1 hl').2.2 x hx c (by simp) ⟨hxy.1, hc⟩
  · rw [heq]
    refine List.isChain_append.2 ⟨List.IsChain.left_of_append h, hcons _, ?_⟩
    intro x hx y hy hxy
    rcases hl with rfl | ⟨l', c, rfl, hc⟩
    · simp at hx
    · obtain rfl : c = x := by simpa using hx
      rw [hc] at hxy
      exact Bool.noConfusion hxy.1

/-- Nothing changes for the other holders. -/
theorem helds_release : helds (release l b r) = helds l ++ helds r := by
  have habs : helds (absorb b r).2 = helds r := by
    rcases absorb_cases b r with ⟨c, r', rfl, hc, heq⟩ | ⟨-, heq⟩
    · rw [heq, helds_cons_free hc]
    · rw [heq]
  rw [release]
  rcases join_cases l (absorb b r).1 (absorb b r).2 with ⟨l', c, rfl, hc, heq⟩ | ⟨-, heq⟩
  · rw [heq, helds_append, helds_cons_free rfl, habs, helds_append, helds_cons_free hc, helds_nil,
      List.append_nil]
  · rw [heq, helds_append, helds_cons_free (absorb_isFree b r), habs]

/-- The freed block is part of a free one. -/
theorem exists_release : ∃ c ∈ release l b r, c.isFree = true ∧ b.size ≤ c.size := by
  have habs : b.size ≤ (absorb b r).1.size := by
    rcases absorb_cases b r with ⟨c, r', -, -, heq⟩ | ⟨-, heq⟩ <;> rw [heq]
    · exact Nat.le_add_right _ _
  rw [release]
  rcases join_cases l (absorb b r).1 (absorb b r).2 with ⟨l', c, -, -, heq⟩ | ⟨-, heq⟩
  · refine ⟨⟨c.addr, c.size + (absorb b r).1.size, none⟩, by simp [heq], rfl, ?_⟩
    exact habs.trans (Nat.le_add_left _ _)
  · exact ⟨(absorb b r).1, by simp [heq], absorb_isFree b r, habs⟩

end

/-! ## The scan -/

namespace Layout

variable {e : Env} {s s' : State} {last : Nat} {l r : List Block} {b : Block} {fuel : Nat}

theorem frees_middle (hb : b.isFree = false) : frees (l ++ b :: r) = frees l ++ frees r := by
  rw [frees_append, frees_cons_held hb]

theorem pred_mem_ring (hb : b.isFree = false) :
    predOf e l ∈ e.base :: frees (l ++ b :: r) := by
  have h1 := predOf_mem e l
  rw [frees_middle hb]
  simp only [List.mem_cons, List.mem_append] at h1 ⊢
  exact h1.elim Or.inl fun h => Or.inr (Or.inl h)

theorem pred_sep (P : Sited e s.pool s.poolSize) (L : Layout e s last (l ++ b :: r))
    (hb : b.isFree = false) : Sep e b.addr (predOf e l) := by
  refine L.sep_heads P (by simp) (mem_heads_of_ring (pred_mem_ring hb)) fun h => ?_
  rcases List.mem_cons.1 (predOf_mem e l) with hp | hp
  · exact (L.sep_base P (b := b) (by simp)).ne (hp.symm.trans h.symm)
  · obtain ⟨x, hx, -, hxa⟩ := mem_frees.1 hp
    have := L.lt_of_mem_left hx
    omega

theorem succ_absorb_mem (hb : b.isFree = false) :
    succOf e (absorb b r).2 ∈ e.base :: frees (l ++ b :: r) := by
  obtain ⟨u, hu⟩ := absorb_suffix b r
  have h1 : frees r = frees u ++ frees (absorb b r).2 := by rw [← frees_append, hu]
  have h2 := succOf_mem e (absorb b r).2
  rw [frees_middle hb, h1]
  simp only [List.mem_cons, List.mem_append] at h2 ⊢
  exact h2.elim Or.inl fun h => Or.inr (Or.inr (Or.inr h))

/-- **The scan of `memmgr_free` ends at the predecessor of the block**, within one lap. -/
theorem scan_eq (P : Sited e s.pool s.poolSize) (L : Layout e s last (l ++ b :: r))
    (hb : b.isFree = false) (hf : (frees l ++ frees r).length < fuel) :
    seek (s.next e) (stops (s.next e) b.addr) fuel s.freep = some (predOf e l) := by
  have hring := L.ring
  have hmem := L.freep_mem
  have hsort := L.frees_sorted
  rw [frees_middle hb] at hring hmem hsort
  obtain ⟨d, hd⟩ := cons_frees_eq e l
  have hpred : predOf e l ∈ e.base :: (frees l ++ frees r) :=
    frees_middle (r := r) hb ▸ pred_mem_ring hb
  refine hring.seek_eq hmem hpred (hring.stops_iff hd hsort ?_ ?_ ?_) hf
  · intro y hy
    obtain ⟨c, hc, -, rfl⟩ := mem_frees.1 hy
    exact L.lt_of_mem_left hc
  · intro y hy
    obtain ⟨c, hc, -, rfl⟩ := mem_frees.1 hy
    exact L.lt_of_mem_right hc
  · have hside := L.beside P
    have hsub : ∀ y ∈ frees l ++ b.addr :: frees r, y ∈ (l ++ b :: r).map Block.addr := by
      intro y hy
      simp only [List.map_append, List.map_cons, List.mem_append, List.mem_cons] at hy ⊢
      rcases hy with hy | rfl | hy
      · exact Or.inl ((frees_sublist l).mem hy)
      · exact Or.inr (Or.inl rfl)
      · exact Or.inr (Or.inr ((frees_sublist r).mem hy))
    rcases hside with h | h
    · exact Or.inl fun y hy => h y (hsub y hy)
    · exact Or.inr fun y hy => h y (hsub y hy)

/-! ## Merging with the block above -/

/-- The block above is free exactly when the successor in the ring is where the block ends. -/
theorem end_eq_succOf (P : Sited e s.pool s.poolSize) (L : Layout e s last (l ++ b :: r)) :
    e.ptrAdd b.addr b.size = succOf e r ↔ ∃ c r', r = c :: r' ∧ c.isFree = true := by
  have hb := L.bounds (b := b) (by simp)
  rw [L.ptrAdd_size P (by simp)]
  obtain ⟨-, -, htiles⟩ := tiles_append_cons.1 L.tiles
  have hbase : b.addr + b.bytes e ≠ e.base := by
    have h1 := L.inside
    have h2 := e.hdr_pos
    rcases P.beside with h | h <;> omega
  constructor
  · intro h
    cases r with
    | nil => exact absurd h (by simpa [succOf] using hbase)
    | cons c r' =>
      refine ⟨c, r', rfl, ?_⟩
      by_contra hc
      rw [Bool.not_eq_true] at hc
      obtain ⟨hca, hcpos, hcr⟩ := htiles
      rw [succOf_cons_held e hc] at h
      rcases List.mem_cons.1 (succOf_mem e r') with hq | hq
      · exact hbase (h.trans hq)
      · obtain ⟨x, hx, -, hxa⟩ := mem_frees.1 hq
        have := (hcr.bounds hx).1
        omega
  · rintro ⟨c, r', rfl, hc⟩
    rw [succOf_cons_free e hc]
    exact htiles.1.symm

/-- The first conditional of `memmgr_free`: the block gets the successor and the size that
`absorb` gives it. -/
theorem absorb_step (P : Sited e s.pool s.poolSize) (L : Layout e s last (l ++ b :: r))
    (hb : b.isFree = false) :
    ∃ s', (if e.ptrAdd b.addr (s.size e b.addr) = s.next e (predOf e l) then
        let s' := s.setSize e b.addr
          (e.ulong (s.size e b.addr + s.size e (s.next e (predOf e l))))
        s'.setNext e b.addr (s'.next e (s'.next e (predOf e l)))
      else s.setNext e b.addr (s.next e (predOf e l))) = s' ∧
      Rehead e s s' b.addr (succOf e (absorb b r).2) (absorb b r).1.size := by
  have hring := L.ring
  rw [frees_middle hb] at hring
  have hnext : s.next e (predOf e l) = succOf e r := next_predOf hring
  have hbs : s.size e b.addr = b.size := L.sizes b (by simp)
  have hlt := L.addr_lt P (b := b) (by simp)
  have hhdr := e.hdr_pos
  have hpb := L.pred_sep P hb
  have hnx := (L.ring_lt P (succ_absorb_mem (l := l) (r := r) hb)).1
  rw [hbs, hnext]
  rcases absorb_cases b r with ⟨c, r', hr, hc, heq⟩ | ⟨hr, heq⟩ <;> rw [heq] at hnx
  · rw [if_pos ((L.end_eq_succOf P).2 ⟨c, r', hr, hc⟩), heq]
    subst hr
    have hcs : s.size e c.addr = c.size := L.sizes c (by simp)
    have hclt := L.addr_lt P (b := c) (by simp)
    have hcb := L.lt_of_mem_right (c := c) (by simp)
    have hsep : Sep e b.addr c.addr := L.sep_blocks (by simp) (by simp) (by omega)
    have hroom : b.size + c.size < e.range := by
      obtain ⟨-, -, htiles⟩ := tiles_append_cons.1 L.tiles
      have hend := htiles.1
      simp only [Block.bytes] at hlt hclt hend
      have hb1 : b.size ≤ b.size * e.hdr := Nat.le_mul_of_pos_right _ hhdr
      have hc1 : c.size ≤ c.size * e.hdr := Nat.le_mul_of_pos_right _ hhdr
      omega
    have hstep := rehead_setSize (p := b.addr) s hroom
    simp only [succOf_cons_free e hc, hcs]
    have hcnext : s.next e c.addr = succOf e r' := by
      rw [frees_cons_free hc] at hring
      have h1 : s.next e (predOf e (l ++ [c])) = succOf e r' := by
        refine next_predOf ?_
        rw [frees_append, frees_cons_free hc, frees_nil, List.append_assoc, List.singleton_append]
        exact hring
      rwa [predOf_concat_free e hc] at h1
    rw [Env.ulong_eq hroom, hstep.next_of_sep hpb, hnext, succOf_cons_free e hc,
      hstep.next_of_sep hsep, hcnext]
    exact ⟨_, rfl, rehead_setSize_setNext s hnx hroom⟩
  · rw [if_neg, heq]
    · refine ⟨_, rfl, ?_⟩
      have h3 := rehead_setNext (p := b.addr) s hnx
      rwa [hbs] at h3
    · rw [L.end_eq_succOf P]
      rintro ⟨c, r', rfl, hc⟩
      rcases hr with hr | ⟨c', r'', hr, hc'⟩
      · exact absurd hr (by simp)
      · obtain ⟨rfl, rfl⟩ : c = c' ∧ r' = r'' := by simpa using hr
        rw [hc] at hc'
        exact Bool.noConfusion hc'

/-! ## Merging with the block below, or linking the block in -/

/-- The predecessor ends where the block begins exactly when the block below is free. -/
theorem end_predOf (P : Sited e s.pool s.poolSize) (L : Layout e s last (l ++ b :: r)) :
    e.ptrAdd (predOf e l) (s.size e (predOf e l)) = b.addr ↔
      ∃ l' c, l = l' ++ [c] ∧ c.isFree = true := by
  constructor
  · intro h
    rcases List.mem_cons.1 (predOf_mem e l) with hp | hp
    · have h1 := e.base_lt
      rw [hp, L.base_size, Env.ptrAdd_eq (by omega)] at h
      exact absurd (by omega : e.base = b.addr) (L.sep_base P (b := b) (by simp)).ne
    · obtain ⟨x, hx, hfree, hxa⟩ := mem_frees.1 hp
      rw [← hxa, L.sizes x (by simp [hx]), L.ptrAdd_size P (by simp [hx])] at h
      obtain ⟨l', v, rfl⟩ := List.append_of_mem hx
      rcases List.eq_nil_or_concat' v with rfl | ⟨v, c, rfl⟩
      · exact ⟨l', x, rfl, hfree⟩
      · -- another block lies between the predecessor and `b`
        have h1 := L.tiles
        rw [List.append_assoc, List.cons_append, tiles_append_cons] at h1
        have h2 := (h1.2.2.bounds (b := c) (by simp)).1
        have h3 := L.lt_of_mem_left (c := c) (by simp)
        omega
  · rintro ⟨l', c, rfl, hc⟩
    rw [predOf_concat_free e hc, L.sizes c (by simp), L.ptrAdd_size P (by simp)]
    have h1 := L.tiles
    rw [List.append_assoc, List.singleton_append, tiles_append_cons] at h1
    exact h1.2.2.1.symm

/-- The header of the predecessor after the second conditional of `memmgr_free`, for a freed block
`b` with the successor `nx`: either it is the block below and has grown by `b`, or it only has a
new successor. -/
def JoinStep (e : Env) (s s' : State) (l : List Block) (b : Block) (nx : Nat) : Prop :=
  (∃ l' c, l = l' ++ [c] ∧ c.isFree = true ∧ Rehead e s s' c.addr nx (c.size + b.size)) ∨
  ((l = [] ∨ ∃ l' c, l = l' ++ [c] ∧ c.isFree = false) ∧
    Rehead e s s' (predOf e l) b.addr (s.size e (predOf e l)))

theorem join_step {s₁ : State} (P : Sited e s.pool s.poolSize)
    (L : Layout e s last (l ++ b :: r)) (hb : b.isFree = false)
    (h : Rehead e s s₁ b.addr (succOf e (absorb b r).2) (absorb b r).1.size) :
    ∃ s', (if e.ptrAdd (predOf e l) (s₁.size e (predOf e l)) = b.addr then
        let s' := s₁.setSize e (predOf e l)
          (e.ulong (s₁.size e (predOf e l) + s₁.size e b.addr))
        s'.setNext e (predOf e l) (s'.next e b.addr)
      else s₁.setNext e (predOf e l) b.addr) = s' ∧
      JoinStep e s₁ s' l (absorb b r).1 (succOf e (absorb b r).2) := by
  have hpb := L.pred_sep P hb
  have hhdr := e.hdr_pos
  rw [h.size_of_sep hpb, h.size_self]
  by_cases hl : ∃ l' c, l = l' ++ [c] ∧ c.isFree = true
  · rw [if_pos ((L.end_predOf P).2 hl)]
    obtain ⟨l', c, rfl, hc⟩ := hl
    rw [predOf_concat_free e hc] at hpb ⊢
    have hcs : s.size e c.addr = c.size := L.sizes c (by simp)
    have htiles := release_tiles L.tiles
    rw [release, join_concat_free hc] at htiles
    have hroom : c.size + (absorb b r).1.size < e.range := by
      have h1 := (htiles.bounds (b := ⟨c.addr, c.size + (absorb b r).1.size, none⟩)
        (by simp)).2.2
      have h2 := L.inside
      have h3 := P.fits
      have h4 : c.size + (absorb b r).1.size ≤ (c.size + (absorb b r).1.size) * e.hdr :=
        Nat.le_mul_of_pos_right _ hhdr
      simp only [Block.bytes] at h1
      omega
    have hnx := (L.ring_lt P (succ_absorb_mem hb)).1
    have hstep := rehead_setSize (p := c.addr) s₁ hroom
    refine ⟨_, rfl, Or.inl ⟨l', c, rfl, hc, ?_⟩⟩
    simp only [hcs]
    rw [Env.ulong_eq hroom, hstep.next_of_sep hpb.symm, h.next_self]
    exact rehead_setSize_setNext s₁ hnx hroom
  · rw [if_neg (fun heq => hl ((L.end_predOf P).1 heq))]
    refine ⟨_, rfl, Or.inr ⟨?_, ?_⟩⟩
    · rcases List.eq_nil_or_concat' l with rfl | ⟨l', c, rfl⟩
      · exact Or.inl rfl
      · refine Or.inr ⟨l', c, rfl, ?_⟩
        rw [← Bool.not_eq_true]
        exact fun hc => hl ⟨l', c, rfl, hc⟩
    · rw [absorb_addr]
      have := L.addr_lt P (b := b) (by simp)
      exact rehead_setNext s₁ (by omega)

/-! ## The whole function -/

theorem JoinStep.pool_eq {s₁ s₂ : State} {nx : Nat} (h : JoinStep e s₁ s₂ l b nx) :
    s₂.pool = s₁.pool ∧ s₂.poolSize = s₁.poolSize := by
  rcases h with ⟨l', c, -, -, h⟩ | ⟨-, h⟩ <;> rw [h.statics] <;> exact ⟨rfl, rfl⟩

/-- A block behind `b` is neither `b` nor the predecessor. -/
theorem right_ne (P : Sited e s.pool s.poolSize) (L : Layout e s last (l ++ b :: r)) {x : Block}
    (hx : x ∈ r) : x.addr ≠ b.addr ∧ x.addr ≠ predOf e l := by
  have hbx := L.lt_of_mem_right hx
  refine ⟨hbx.ne', ?_⟩
  rcases List.mem_cons.1 (predOf_mem e l) with hp | hp
  · rw [hp]
    exact (L.sep_base P (b := x) (by simp [hx])).ne.symm
  · obtain ⟨y, hy, -, hya⟩ := mem_frees.1 hp
    have hyb := L.lt_of_mem_left hy
    omega

/-- When one header is written the others are as they were. -/
theorem heads_kept {t t' : State} {bs : List Block} {p q v k : Nat} (P : Sited e s.pool s.poolSize)
    (L : Layout e s last bs) (hp : p ∈ e.base :: bs.map Block.addr) (h : Rehead e t t' p v k)
    (hq : q ∈ e.base :: bs.map Block.addr) (hne : q ≠ p) :
    t'.next e q = t.next e q ∧ t'.size e q = t.size e q := by
  have hsep := L.sep_heads P hp hq hne.symm
  exact ⟨h.next_of_sep hsep, h.size_of_sep hsep⟩

/-- A header that is neither the block's nor the predecessor's is as it was. -/
theorem release_kept {s₁ s₂ : State} (P : Sited e s.pool s.poolSize)
    (L : Layout e s last (l ++ b :: r)) (hb : b.isFree = false)
    (h₁ : Rehead e s s₁ b.addr (succOf e (absorb b r).2) (absorb b r).1.size)
    (h₂ : JoinStep e s₁ s₂ l (absorb b r).1 (succOf e (absorb b r).2)) {q : Nat}
    (hq : q ∈ e.base :: (l ++ b :: r).map Block.addr) (hqb : q ≠ b.addr) (hqp : q ≠ predOf e l) :
    s₂.next e q = s.next e q ∧ s₂.size e q = s.size e q := by
  have hfirst := L.heads_kept P (by simp) h₁ hq hqb
  have hpred := mem_heads_of_ring (pred_mem_ring (e := e) (l := l) (r := r) hb)
  have hsecond : s₂.next e q = s₁.next e q ∧ s₂.size e q = s₁.size e q := by
    rcases h₂ with ⟨l', c, rfl, hc, h⟩ | ⟨-, h⟩
    · rw [predOf_concat_free e hc] at hpred hqp
      exact L.heads_kept P hpred h hq hqp
    · exact L.heads_kept P hpred h hq hqp
  exact ⟨hsecond.1.trans hfirst.1, hsecond.2.trans hfirst.2⟩

/-- The links before the predecessor and behind the freed block are as they were. -/
theorem release_links {s₁ s₂ : State} (P : Sited e s.pool s.poolSize)
    (L : Layout e s last (l ++ b :: r)) (hb : b.isFree = false)
    (h₁ : Rehead e s s₁ b.addr (succOf e (absorb b r).2) (absorb b r).1.size)
    (h₂ : JoinStep e s₁ s₂ l (absorb b r).1 (succOf e (absorb b r).2)) {d : List Nat}
    (hd : e.base :: frees l = d ++ [predOf e l]) {q : Nat}
    (hq : q ∈ d ∨ q ∈ frees (absorb b r).2) : s₂.next e q = s.next e q := by
  rcases hq with hq | hq
  · have hq' : q ∈ e.base :: frees l := by rw [hd]; exact List.mem_append_left _ hq
    have hnd := L.ring_nodup P
    rw [frees_middle hb] at hnd
    have hndl : (d ++ [predOf e l]).Nodup := by
      rw [← hd]
      exact hnd.sublist (List.sublist_append_left (e.base :: frees l) (frees r))
    refine (release_kept P L hb h₁ h₂ ?_ ?_ ?_).1
    · have hhead := mem_heads_of_ring hq'
      simp only [List.map_append, List.mem_cons, List.mem_append] at hhead ⊢
      exact hhead.imp_right Or.inl
    · rcases List.mem_cons.1 hq' with rfl | hq'
      · exact (L.sep_base P (b := b) (by simp)).ne
      · obtain ⟨x, hx, -, rfl⟩ := mem_frees.1 hq'
        exact (L.lt_of_mem_left hx).ne
    · rintro rfl
      exact (List.nodup_append.1 hndl).2.2 _ hq _ (by simp) rfl
  · obtain ⟨x, hx, -, rfl⟩ := mem_frees.1 hq
    have hxr : x ∈ r := (absorb_suffix b r).mem hx
    obtain ⟨hxb, hxp⟩ := L.right_ne P hxr
    refine (release_kept P L hb h₁ h₂ ?_ hxb hxp).1
    exact List.mem_cons_of_mem _ (List.mem_map_of_mem (by simp [hxr]))

/-- Every header of the released list has its size. -/
theorem release_sizes {s₁ s₂ : State} (P : Sited e s.pool s.poolSize)
    (L : Layout e s last (l ++ b :: r)) (hb : b.isFree = false)
    (h₁ : Rehead e s s₁ b.addr (succOf e (absorb b r).2) (absorb b r).1.size)
    (h₂ : JoinStep e s₁ s₂ l (absorb b r).1 (succOf e (absorb b r).2)) {x : Block}
    (hx : x ∈ release l b r) : s₂.size e x.addr = x.size := by
  have hpb := L.pred_sep P hb
  have hkept := fun q => release_kept (q := q) P L hb h₁ h₂
  have hheads : ∀ y, y ∈ l ∨ y ∈ r → y.addr ∈ e.base :: (l ++ b :: r).map Block.addr :=
    fun y hy => List.mem_cons_of_mem _ (List.mem_map_of_mem (by rcases hy with h | h <;> simp [h]))
  have hbehind : ∀ y ∈ (absorb b r).2, s₂.size e y.addr = y.size := by
    intro y hy
    have hyr : y ∈ r := (absorb_suffix b r).mem hy
    obtain ⟨hyb, hyp⟩ := L.right_ne P hyr
    rw [(hkept _ (hheads y (Or.inr hyr)) hyb hyp).2, L.sizes y (by simp [hyr])]
  rcases h₂ with ⟨l', c, rfl, hc, h⟩ | ⟨hl, h⟩
  · rw [release, join_concat_free hc] at hx
    rcases List.mem_append.1 hx with hx | hx
    · have hxc : x.addr ≠ c.addr := by
        have hsorted := L.sorted
        simp only [List.map_append, List.map_cons, List.map_nil, List.append_assoc] at hsorted
        exact ((List.pairwise_append.1 hsorted).2.2 _ (List.mem_map_of_mem hx) _ (by simp)).ne
      have hxb : x.addr ≠ b.addr := (L.lt_of_mem_left (c := x) (by simp [hx])).ne
      rw [(hkept _ (hheads x (Or.inl (by simp [hx]))) hxb (by rwa [predOf_concat_free e hc])).2,
        L.sizes x (by simp [hx])]
    · rcases List.mem_cons.1 hx with rfl | hx
      · exact h.size_self
      · exact hbehind x hx
  · rw [release_of_held hl] at hx
    rcases List.mem_append.1 hx with hx | hx
    · by_cases hxp : x.addr = predOf e l
      · rw [hxp, h.size_self, h₁.size_of_sep hpb, ← hxp, L.sizes x (by simp [hx])]
      · rw [(hkept _ (hheads x (Or.inl hx)) (L.lt_of_mem_left hx).ne hxp).2,
          L.sizes x (by simp [hx])]
    · rcases List.mem_cons.1 hx with rfl | hx
      · rw [absorb_addr, h.size_of_sep hpb.symm, h₁.size_self]
      · exact hbehind x hx

/-- The free blocks of the released list are linked in a ring. -/
theorem release_ring {s₁ s₂ : State} (P : Sited e s.pool s.poolSize)
    (L : Layout e s last (l ++ b :: r)) (hb : b.isFree = false)
    (h₁ : Rehead e s s₁ b.addr (succOf e (absorb b r).2) (absorb b r).1.size)
    (h₂ : JoinStep e s₁ s₂ l (absorb b r).1 (succOf e (absorb b r).2)) :
    IsRing (s₂.next e) e.base (frees (release l b r)) := by
  have hring := L.ring
  rw [frees_middle hb] at hring
  obtain ⟨d, hd⟩ := cons_frees_eq e l
  obtain ⟨t, ht⟩ := frees_concat_eq e (absorb b r).2
  obtain ⟨u, hu⟩ := absorb_suffix b r
  have hfr : frees r = frees u ++ frees (absorb b r).2 := by rw [← frees_append, hu]
  have hpb := L.pred_sep P hb
  have hlinks := fun q => release_links (q := q) P L hb h₁ h₂ hd
  rw [hfr, ← List.append_assoc] at hring
  rcases h₂ with ⟨l', c, rfl, hc, h⟩ | ⟨hl, h⟩
  · have hsplice := hring.splice (s₂.next e) [] hd ht hlinks (by
      rw [predOf_concat_free e hc]
      simpa using h.next_self)
    rw [release, join_concat_free hc, frees_append, frees_cons_free rfl]
    simpa [frees_cons_free hc] using hsplice
  · have hlink : s₂.next e b.addr = succOf e (absorb b r).2 := by
      rw [h.next_of_sep hpb.symm, h₁.next_self]
    have hsplice := hring.splice (s₂.next e) [b.addr] hd ht hlinks (by
      simp [h.next_self, hlink, absorb_addr])
    rw [release_of_held hl, frees_append, frees_cons_free (absorb_isFree b r), absorb_addr]
    simpa using hsplice

/-- Both headers written, the state is the image of the released list. -/
theorem release_layout {s₁ s₂ : State} (P : Sited e s.pool s.poolSize)
    (L : Layout e s last (l ++ b :: r)) (hb : b.isFree = false)
    (h₁ : Rehead e s s₁ b.addr (succOf e (absorb b r).2) (absorb b r).1.size)
    (h₂ : JoinStep e s₁ s₂ l (absorb b r).1 (succOf e (absorb b r).2)) :
    Layout e { s₂ with freep := predOf e l } last (release l b r) := by
  have hpb := L.pred_sep P hb
  have hpool : s₂.pool = s.pool ∧ s₂.poolSize = s.poolSize := by
    rw [h₂.pool_eq.1, h₂.pool_eq.2, h₁.statics]
    exact ⟨rfl, rfl⟩
  have hsizes : ∀ x ∈ release l b r, s₂.size e x.addr = x.size :=
    fun x hx => release_sizes P L hb h₁ h₂ hx
  have hring := release_ring P L hb h₁ h₂
  refine
    { tiles := ?_, inside := ?_, sizes := hsizes, base_size := ?_, ring := hring,
      freep_mem := ?_, coalesced := release_coalesced L.coalesced }
  · show Tiles _ _ s₂.pool _ _
    rw [hpool.1]
    exact release_tiles L.tiles
  · show last ≤ s₂.pool + s₂.poolSize.toNat
    rw [hpool.1, hpool.2]
    exact L.inside
  · show s₂.size e e.base = 0
    by_cases hp : e.base = predOf e l
    · rcases h₂ with ⟨l', c, rfl, hc, h⟩ | ⟨-, h⟩
      · rw [predOf_concat_free e hc] at hp
        exact absurd hp (L.sep_base P (b := c) (by simp)).ne
      · rw [hp, h.size_self, h₁.size_of_sep hpb, ← hp, L.base_size]
    · rw [(release_kept P L hb h₁ h₂ (by simp) (L.sep_base P (b := b) (by simp)).ne hp).2,
        L.base_size]
  · show predOf e l ∈ e.base :: frees (release l b r)
    have hmem := predOf_mem e l
    rcases h₂ with ⟨l', c, rfl, hc, -⟩ | ⟨hl, -⟩
    · rw [release, join_concat_free hc, predOf_concat_free e hc, frees_append,
        frees_cons_free rfl]
      simp
    · rw [release_of_held hl, frees_append]
      simp only [List.mem_cons, List.mem_append] at hmem ⊢
      exact hmem.imp_right Or.inl

/-- **`memmgr_free` releases the block**: it comes back within one lap of the free list, and what it
leaves is the image of the list of blocks with this one released. -/
theorem memmgrFree (P : Sited e s.pool s.poolSize) (L : Layout e s last (l ++ b :: r))
    (hb : b.isFree = false) (hf : (frees l ++ frees r).length < fuel) :
    ∃ s', Memmgr.memmgrFree e fuel s (b.addr + e.hdr) = some s' ∧
      Layout e s' last (release l b r) ∧ Kept e (l ++ b :: r) s s' ∧
      s'.freep = predOf e l ∧ s'.poolFreePos = s.poolFreePos ∧
      s'.largestAllocation = s.largestAllocation := by
  have hlt := L.addr_lt P (b := b) (by simp)
  have hpos := e.hdr_pos
  have hpool := P.pool_pos
  have hbd := L.bounds (b := b) (by simp)
  obtain ⟨s₁, hs₁, h₁⟩ := L.absorb_step P hb
  obtain ⟨s₂, hs₂, h₂⟩ := L.join_step P hb h₁
  have hstat : s₂ = { s with mem := s₂.mem } := by
    rcases h₂ with ⟨l', c, -, -, h⟩ | ⟨-, h⟩ <;> rw [h.statics, h₁.statics]
  -- only the headers of the block and of its predecessor have been written
  have hframe : ∀ x, (∀ q ∈ e.base :: (l ++ b :: r).map Block.addr, x < q ∨ q + e.hdr ≤ x) →
      s₂.mem x = s.mem x := by
    intro x hx
    have h3 := h₁.frame x (hx _ (by simp))
    have h4 := hx _ (mem_heads_of_ring (pred_mem_ring hb))
    rcases h₂ with ⟨l', c, rfl, hc, h⟩ | ⟨-, h⟩
    · rw [predOf_concat_free e hc] at h4
      exact (h.frame x h4).trans h3
    · exact (h.frame x h4).trans h3
  refine ⟨{ s₂ with freep := predOf e l }, ?_, L.release_layout P hb h₁ h₂,
    ⟨?_, ?_, ?_⟩, rfl, ?_, ?_⟩
  · rw [Memmgr.memmgrFree, if_neg (by omega), if_neg (by omega),
      Env.ptrPred_add (by omega : b.addr < e.range)]
    dsimp only at hs₁ hs₂ ⊢
    rw [L.scan_eq P hb hf]
    dsimp only
    rw [hs₁, hs₂]
  · exact fun c hc _ x h1 h2 => hframe x fun q hq => L.payload_outside P hc hq h1 h2
  · exact fun x h1 h2 => hframe x fun q hq => L.foreign_outside hq h1 h2
  · rw [hstat]
  · rw [hstat]
  · rw [hstat]

end Layout

end Memmgr
end Zedboard
