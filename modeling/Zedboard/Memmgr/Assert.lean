import Zedboard.Memmgr.Runs

/-!
# `memmgr_assert`

`memmgr_assert` is meant to tell the pointers into the clients' payloads from all others.  It looks
for a header in front of the pointer, at as many places as the largest request had bytes, and takes
a place for one when *neither* of its words is a nonce.

`memmgrAssert_iff` is what it computes.  Two nonces of a kind do not overlap, so of three
neighbouring places one is unmarked whatever the memory holds (`unmarked_of_three`), and one of the
first bytes of the pool, in its first header, passes like the payloads do.  `assert_judges` draws
the conclusions for the sessions that can be reached: it is right about all pointers only where it
refuses all of them, and there are no payloads.
-/

set_option autoImplicit false

namespace Zedboard
namespace Memmgr

variable {e : Env} {s : State} {ap : Nat}

/-- The place `i` headers in front of a pointer. -/
def back (e : Env) (ap i : Nat) : Nat := (ap + (e.range - i % e.range) * e.hdr) % e.range

/-- Neither word of the place is a nonce. -/
def Unmarked (e : Env) (s : State) (p : Nat) : Prop :=
  s.nonceAt e p ≠ nonce ∧ s.nonce2At e p ≠ nonce2

/-- The pointer passes the comparison with the ends of the pool, which is made in 32 bits. -/
def InPool (s : State) (ap : Nat) : Prop :=
  s.pool ≠ 0 ∧ UInt32.ofNat s.pool ≤ UInt32.ofNat ap ∧
    UInt32.ofNat ap ≤ UInt32.ofNat s.pool + s.poolSize

/-- A place is found. -/
def Found (e : Env) (s : State) (ap : Nat) : Prop :=
  ∃ i, i < s.largestAllocation.toNat ∧ Unmarked e s (back e ap i)

theorem assertLoop_iff {n i : Nat} :
    assertLoop e s ap n i = true ↔ ∃ j, i ≤ j ∧ j < i + n ∧ Unmarked e s (back e ap j) := by
  induction n generalizing i with
  | zero =>
    refine iff_of_false (by simp [assertLoop]) ?_
    rintro ⟨j, h1, h2, -⟩
    omega
  | succ n ih =>
    rw [assertLoop]
    split
    · rename_i h
      exact iff_of_true rfl ⟨i, le_refl i, by omega, h⟩
    · rename_i h
      rw [ih]
      constructor
      · rintro ⟨j, h1, h2, hj⟩
        exact ⟨j, by omega, by omega, hj⟩
      · rintro ⟨j, h1, h2, hj⟩
        have hne : j ≠ i := by
          rintro rfl
          exact h hj
        exact ⟨j, by omega, by omega, hj⟩

/-- **What `memmgr_assert` computes.** -/
theorem memmgrAssert_iff : memmgrAssert e s ap = true ↔ InPool s ap ∧ Found e s ap := by
  rw [memmgrAssert]
  dsimp only
  split
  · rename_i h
    exact iff_of_false Bool.noConfusion fun hin => hin.1.1 h
  · rename_i hpool
    split
    · rename_i h
      refine iff_of_false Bool.noConfusion fun hin => ?_
      rcases h with h | h
      · exact UInt32.not_lt.2 hin.1.2.2 h
      · exact UInt32.not_lt.2 hin.1.2.1 h
    · rename_i h
      rw [not_or, UInt32.not_lt, UInt32.not_lt] at h
      rw [assertLoop_iff]
      constructor
      · rintro ⟨i, -, hi, hun⟩
        exact ⟨⟨hpool, h.2, h.1⟩, i, by omega, hun⟩
      · rintro ⟨-, i, hi, hun⟩
        exact ⟨i, Nat.zero_le i, by omega, hun⟩

/-! ## The places -/

/-- The place `0` headers in front of a pointer is where it points. -/
theorem back_zero (h : ap < e.range) : back e ap 0 = ap := by
  rw [back, Nat.zero_mod, Nat.sub_zero, Nat.add_mul_mod_self_left, Nat.mod_eq_of_lt h]

/-- The first three bytes of a word. -/
theorem bytes_of_readLE {m : Mem} {a v : Nat} (h : m.readLE 4 a = v) :
    (m a).toNat = v % 256 ∧ (m (a + 1)).toNat = v / 256 % 256 ∧
      (m (a + 2)).toNat = v / 65536 % 256 := by
  have h0 := (m a).toNat_lt
  have h1 := (m (a + 1)).toNat_lt
  have h2 := (m (a + 2)).toNat_lt
  simp only [Mem.readLE, Nat.add_assoc, Nat.reduceAdd] at h
  omega

/-- A word whose low byte is neither of the next two is not found again one or two bytes further. -/
theorem readLE_ne_shifted {m : Mem} {a v i : Nat} (hv : v % 256 ≠ v / 256 % 256)
    (hv' : v % 256 ≠ v / 65536 % 256) (h : m.readLE 4 a = v) (hi : i = 1 ∨ i = 2) :
    m.readLE 4 (a + i) ≠ v := by
  intro h'
  obtain ⟨-, h1, h2⟩ := bytes_of_readLE h
  obtain ⟨h0, -⟩ := bytes_of_readLE h'
  rcases hi with rfl | rfl
  · exact hv (h0.symm.trans h1)
  · exact hv' (h0.symm.trans h2)

/-- The nonces of one kind of two places that are one or two bytes apart overlap, so they are not
both there. -/
theorem nonceAt_shifted {q i : Nat} (h : s.nonceAt e q = nonce) (hi : i = 1 ∨ i = 2) :
    s.nonceAt e (q + i) ≠ nonce := by
  rw [State.nonceAt, Nat.add_right_comm]
  exact readLE_ne_shifted (by decide) (by decide) h hi

theorem nonce2At_shifted {q i : Nat} (h : s.nonce2At e q = nonce2) (hi : i = 1 ∨ i = 2) :
    s.nonce2At e (q + i) ≠ nonce2 := by
  have hplace : q + i + 2 * e.word + 4 = q + 2 * e.word + 4 + i := by omega
  rw [State.nonce2At, hplace]
  exact readLE_ne_shifted (by decide) (by decide) h hi

/-- **Of three neighbouring places one is unmarked**, whatever the memory holds. -/
theorem unmarked_of_three (e : Env) (s : State) (q : Nat) :
    Unmarked e s q ∨ Unmarked e s (q + 1) ∨ Unmarked e s (q + 2) := by
  -- of three marked places two have the same nonce
  by_contra! h
  have hmarked : ∀ p, ¬Unmarked e s p → s.nonceAt e p = nonce ∨ s.nonce2At e p = nonce2 :=
    fun p hp => by rwa [Unmarked, not_and_or, not_not, not_not] at hp
  rcases hmarked q h.1 with h0 | h0
  · have h1 := (hmarked (q + 1) h.2.1).resolve_left (nonceAt_shifted h0 (Or.inl rfl))
    rcases hmarked (q + 2) h.2.2 with h2 | h2
    · exact nonceAt_shifted h0 (Or.inr rfl) h2
    · exact nonce2At_shifted h1 (Or.inl rfl) h2
  · have h1 := (hmarked (q + 1) h.2.1).resolve_right (nonce2At_shifted h0 (Or.inl rfl))
    rcases hmarked (q + 2) h.2.2 with h2 | h2
    · exact nonceAt_shifted h1 (Or.inl rfl) h2
    · exact nonce2At_shifted h0 (Or.inr rfl) h2

/-! ## The ends of the pool -/

/-- The end of the pool overflows the 32 bits in which it is computed. -/
def Overflows (s : State) : Prop := 2 ^ 32 ≤ s.pool % 2 ^ 32 + s.poolSize.toNat

/-- The comparison with the ends of the pool in numbers. -/
theorem inPool_iff : InPool s ap ↔ s.pool ≠ 0 ∧ ¬Overflows s ∧ s.pool % 2 ^ 32 ≤ ap % 2 ^ 32 ∧
    ap % 2 ^ 32 ≤ s.pool % 2 ^ 32 + s.poolSize.toNat := by
  have hsize := s.poolSize.toNat_lt
  have hap : ap % 2 ^ 32 < 2 ^ 32 := Nat.mod_lt _ (by decide)
  have hpool : s.pool % 2 ^ 32 < 2 ^ 32 := Nat.mod_lt _ (by decide)
  rw [InPool, Overflows, UInt32.le_iff_toNat_le, UInt32.le_iff_toNat_le, UInt32.toNat_add,
    UInt32.toNat_ofNat', UInt32.toNat_ofNat']
  refine and_congr_right fun _ => ?_
  by_cases hover : 2 ^ 32 ≤ s.pool % 2 ^ 32 + s.poolSize.toNat
  · -- the end comes to lie below the start
    have hend : (s.pool % 2 ^ 32 + s.poolSize.toNat) % 2 ^ 32 < s.pool % 2 ^ 32 := by
      rw [Nat.mod_eq_sub_mod hover, Nat.mod_eq_of_lt] <;> omega
    exact iff_of_false (fun h => by omega) fun h => h.1 hover
  · rw [Nat.mod_eq_of_lt (by omega : s.pool % 2 ^ 32 + s.poolSize.toNat < 2 ^ 32)]
    exact ⟨fun h => ⟨hover, h⟩, fun h => h.2⟩

/-- A pointer into the pool passes the comparison. -/
theorem inPool_of_le (hpool : s.pool ≠ 0) (hover : ¬Overflows s) (h1 : s.pool ≤ ap)
    (h2 : ap ≤ s.pool + s.poolSize.toNat) : InPool s ap := by
  have hmod := Nat.div_add_mod s.pool (2 ^ 32)
  rw [Overflows] at hover
  have hap : ap % 2 ^ 32 = s.pool % 2 ^ 32 + (ap - s.pool) := by
    have hsplit : ap = s.pool % 2 ^ 32 + (ap - s.pool) + 2 ^ 32 * (s.pool / 2 ^ 32) := by omega
    rw [hsplit, Nat.add_mul_mod_self_left, Nat.mod_eq_of_lt (by omega)]
    omega
  exact inPool_iff.2 ⟨hpool, hover, by omega, by omega⟩

/-- Of three neighbouring pointers into the pool one passes, once something has been allocated. -/
theorem passes_of_three {q : Nat} (hpool : s.pool ≠ 0) (hover : ¬Overflows s)
    (hlargest : 0 < s.largestAllocation.toNat) (hfits : s.pool + s.poolSize.toNat < e.range)
    (h1 : s.pool ≤ q) (h2 : q + 2 ≤ s.pool + s.poolSize.toNat) :
    memmgrAssert e s q = true ∨ memmgrAssert e s (q + 1) = true ∨
      memmgrAssert e s (q + 2) = true := by
  have hpass : ∀ p, q ≤ p → p ≤ q + 2 → Unmarked e s p → memmgrAssert e s p = true := by
    intro p hp hp' hun
    refine memmgrAssert_iff.2 ⟨inPool_of_le hpool hover (by omega) (by omega), 0, hlargest, ?_⟩
    rwa [back_zero (by omega)]
  exact (unmarked_of_three e s q).imp (hpass q (by omega) (by omega))
    (Or.imp (hpass _ (by omega) (by omega)) (hpass _ (by omega) (by omega)))

/-! ## Reachable sessions -/

/-- Every request that is held counts for the largest one. -/
def Noted (S : Session) : Prop := ∀ p n, (p, n) ∈ S.live → n ≤ S.st.largestAllocation.toNat

/-- A request that has been served counts, and the largest request does not shrink. -/
theorem Inv.alloc_largest {S : Session} {bs : List Block} {p n fuel : Nat} {s' : State}
    (I : Inv e S bs) (hn : n ≤ S.st.poolSize.toNat) (h : memmgrAlloc e fuel S.st n = some (p, s')) :
    S.st.largestAllocation.toNat ≤ s'.largestAllocation.toNat ∧
      (p ≠ 0 → n ≤ s'.largestAllocation.toNat) := by
  have hlt := S.st.poolSize.toNat_lt
  rcases I.place with ⟨hpool, -⟩ | P
  · rw [memmgrAlloc, if_pos hpool] at h
    obtain ⟨rfl, rfl⟩ := Prod.mk.inj (Option.some.inj h)
    exact ⟨le_refl _, fun h0 => absurd rfl h0⟩
  have hmono := memmgrAlloc_mono h (Nat.le_add_right fuel (2 * S.st.poolSize.toNat + 2))
  rcases I.healthy.memmgrAlloc n (fuel + (2 * S.st.poolSize.toNat + 2)) P I.session
    (quantas_no_wrap (I.no_wrap P hn)) (by omega) with
    ⟨p', s'', l, b, r, halloc, hs⟩ | ⟨s'', halloc, hs⟩
  · obtain ⟨rfl, rfl⟩ := Prod.mk.inj (Option.some.inj (hmono.symm.trans halloc))
    rw [hs.largest]
    split
    · rw [UInt32.toNat_ofNat', Nat.mod_eq_of_lt (by omega)]
      exact ⟨by omega, fun _ => le_refl n⟩
    · exact ⟨le_refl _, fun _ => by omega⟩
  · obtain ⟨rfl, rfl⟩ := Prod.mk.inj (Option.some.inj (hmono.symm.trans halloc))
    rw [hs.largest]
    exact ⟨le_refl _, fun h0 => absurd rfl h0⟩

theorem Inv.free_largest {S : Session} {bs : List Block} {p n fuel : Nat} {s' : State}
    (I : Inv e S bs) (hp : (p, n) ∈ S.live) (h : memmgrFree e fuel S.st p = some s') :
    s'.largestAllocation = S.st.largestAllocation := by
  obtain ⟨l, b, r, rfl, hreq, rfl, -⟩ := I.exists_block hp
  obtain ⟨P, L⟩ := I.layout (Or.inl (by simp))
  have hmono := memmgrFree_mono h (Nat.le_add_right fuel ((frees l ++ frees r).length + 1))
  obtain ⟨s'', hfree, -, -, -, -, hlargest⟩ := L.memmgrFree P
    (show b.isFree = false by rw [Block.isFree, hreq]; rfl)
    (show (frees l ++ frees r).length < fuel + ((frees l ++ frees r).length + 1) by omega)
  obtain rfl := Option.some.inj (hmono.symm.trans hfree)
  exact hlargest

/-- One action keeps the largest request. -/
theorem Inv.step_noted {S S' : Session} {bs : List Block} (I : Inv e S bs) {op : Op}
    (h : Step e S op S') (hS : Noted S) : Noted S' := by
  cases h with
  | @alloc n p _ s' hn halloc =>
    obtain ⟨hmono, hserved⟩ := I.alloc_largest hn halloc
    intro q k hlive
    dsimp only at hlive ⊢
    split at hlive
    · exact (hS q k hlive).trans hmono
    · rename_i hp
      rcases List.mem_cons.1 hlive with heq | hlive
      · obtain ⟨rfl, rfl⟩ := Prod.mk.inj heq
        exact hserved hp
      · exact (hS q k hlive).trans hmono
  | free hp hfree =>
    intro q k hlive
    dsimp only at hlive ⊢
    rw [I.free_largest hp hfree]
    exact hS q k (List.mem_of_mem_erase hlive)
  | store => exact hS

/-- So does a whole run. -/
theorem Reachable.noted {s : State} {buffer : Nat} {length baseAddress : UInt32} {S : Session}
    (hs : s.session = 0) (hp : buffer = 0 ∨ Placed e buffer length)
    (h : Reachable e s buffer length baseAddress S) : Noted S := by
  induction h with
  | refl => exact fun p n hlive => absurd hlive List.not_mem_nil
  | tail hrun hstep ih =>
    obtain ⟨bs, I⟩ := Reachable.inv hs hp hrun
    obtain ⟨op, -, hop⟩ := hstep
    exact I.step_noted hop ih

/-- A payload lies in the pool, behind the first header. -/
theorem Inv.held_bounds {S : Session} {bs : List Block} (I : Inv e S bs) {a : Nat}
    (ha : S.Held a) : Sited e S.st.pool S.st.poolSize ∧ S.st.pool + e.hdr ≤ a ∧
      a < S.st.pool + S.st.poolSize.toNat := by
  obtain ⟨p, n, hlive, h1, h2⟩ := ha
  obtain ⟨l, b, r, rfl, -, rfl, hlen⟩ := I.exists_block hlive
  obtain ⟨P, L⟩ := I.layout (Or.inl (by simp))
  have hb := L.bounds (b := b) (by simp)
  have hin := L.inside
  exact ⟨P, by omega, by omega⟩

/-- Nothing passes: there is no pool, or nothing has been allocated yet, or the end of the pool
overflows. -/
def Mute (s : State) : Prop := s.pool = 0 ∨ s.largestAllocation = 0 ∨ Overflows s

/-- A state in which nothing passes refuses every pointer. -/
theorem Mute.refuses (h : Mute s) (ap : Nat) : ¬memmgrAssert e s ap = true := by
  rw [memmgrAssert_iff, inPool_iff]
  rintro ⟨⟨hpool, hover, -⟩, i, hi, -⟩
  rcases h with h | h | h
  · exact hpool h
  · rw [h] at hi
    exact absurd hi (Nat.not_lt_zero i)
  · exact hover h

/-- What `memmgr_assert` is worth in a session. -/
structure Judges (e : Env) (S : Session) : Prop where
  /-- It tells the pointers into payloads from all others exactly when nobody holds a byte, and
  nothing passes at all; for a pool of a single byte the latter may be due to marked places. -/
  right : (∀ ap, ap < e.range → (memmgrAssert e S.st ap = true ↔ S.Held ap)) ↔
    (∀ ap, ¬S.Held ap) ∧ (Mute S.st ∨
      (S.st.poolSize.toNat < 2 ∧ ∀ ap, ap < e.range → InPool S.st ap → ¬Found e S.st ap))
  /-- A pointer into a payload is refused exactly when the end of the pool overflows, or the places
  that are looked at are all marked.  There is at least one of them, where it points. -/
  payload : ∀ ap, S.Held ap → 0 < S.st.largestAllocation.toNat ∧ (memmgrAssert e S.st ap = false ↔
    Overflows S.st ∨ ∀ i, i < S.st.largestAllocation.toNat → ¬Unmarked e S.st (back e ap i))
  /-- A pointer into no payload passes exactly when its low 32 bits lie between those of the ends of
  the pool, which do not overflow, and a place that is looked at is unmarked. -/
  other : ∀ ap, ¬S.Held ap → (memmgrAssert e S.st ap = true ↔
    (S.st.pool ≠ 0 ∧ ¬Overflows S.st ∧ S.st.pool % 2 ^ 32 ≤ ap % 2 ^ 32 ∧
      ap % 2 ^ 32 ≤ S.st.pool % 2 ^ 32 + S.st.poolSize.toNat) ∧
    ∃ i, i < S.st.largestAllocation.toNat ∧ Unmarked e S.st (back e ap i))
  /-- Unless nothing passes, one of any three neighbouring pointers into the pool does, wherever
  they point: into a header, a free block, or space that has never been handed out. -/
  three : ¬Mute S.st → ∀ q, S.st.pool ≤ q → q + 2 ≤ S.st.pool + S.st.poolSize.toNat →
    memmgrAssert e S.st q = true ∨ memmgrAssert e S.st (q + 1) = true ∨
      memmgrAssert e S.st (q + 2) = true

namespace Inv

variable {S : Session} {bs : List Block}

theorem fits (I : Inv e S bs) (hpool : S.st.pool ≠ 0) :
    S.st.pool + S.st.poolSize.toNat < e.range := by
  rcases I.place with ⟨h0, -⟩ | P
  · exact absurd h0 hpool
  · exact P.fits

theorem passes_of_three {q : Nat} (I : Inv e S bs) (hmute : ¬Mute S.st) (h1 : S.st.pool ≤ q)
    (h2 : q + 2 ≤ S.st.pool + S.st.poolSize.toNat) :
    memmgrAssert e S.st q = true ∨ memmgrAssert e S.st (q + 1) = true ∨
      memmgrAssert e S.st (q + 2) = true := by
  rw [Mute, not_or, not_or] at hmute
  obtain ⟨hpool, hlargest, hover⟩ := hmute
  have hpos : 0 < S.st.largestAllocation.toNat :=
    Nat.pos_of_ne_zero fun h => hlargest (UInt32.toNat_inj.1 h)
  exact Memmgr.passes_of_three hpool hover hpos (I.fits hpool) h1 h2

/-- A payload is betrayed by the first header: one of its first three bytes passes as well. -/
theorem not_held (I : Inv e S bs)
    (hall : ∀ ap, ap < e.range → (memmgrAssert e S.st ap = true ↔ S.Held ap)) (a : Nat) :
    ¬S.Held a := by
  intro ha
  obtain ⟨P, h1, h2⟩ := I.held_bounds ha
  have hfits := P.fits
  have hmute : ¬Mute S.st := fun hm => hm.refuses a ((hall a (by omega)).2 ha)
  have hhdr := e.le_hdr
  have hheader : ∀ i, i ≤ 2 → ¬memmgrAssert e S.st (S.st.pool + i) = true := by
    intro i hi hpass
    have h := (I.held_bounds ((hall _ (by omega)).1 hpass)).2.1
    omega
  rcases I.passes_of_three hmute (le_refl _) (by omega) with h | h | h
  · exact hheader 0 (by omega) h
  · exact hheader 1 (by omega) h
  · exact hheader 2 (by omega) h

theorem right (I : Inv e S bs) :
    (∀ ap, ap < e.range → (memmgrAssert e S.st ap = true ↔ S.Held ap)) ↔
    (∀ ap, ¬S.Held ap) ∧ (Mute S.st ∨
      (S.st.poolSize.toNat < 2 ∧ ∀ ap, ap < e.range → InPool S.st ap → ¬Found e S.st ap)) := by
  constructor
  · intro hall
    have hnone := I.not_held hall
    have hrefused : ∀ ap, ap < e.range → ¬memmgrAssert e S.st ap = true :=
      fun ap hap hpass => hnone ap ((hall ap hap).1 hpass)
    refine ⟨hnone, ?_⟩
    by_cases hmute : Mute S.st
    · exact Or.inl hmute
    refine Or.inr ⟨?_, fun ap hap hin hfound =>
      hrefused ap hap (memmgrAssert_iff.2 ⟨hin, hfound⟩)⟩
    by_contra hsize
    have hfits := I.fits fun h0 => hmute (Or.inl h0)
    rcases I.passes_of_three hmute (le_refl _) (by omega) with h | h | h <;>
      exact hrefused _ (by omega) h
  · rintro ⟨hnone, hmute⟩ ap hap
    refine iff_of_false (fun hpass => ?_) (hnone ap)
    rcases hmute with hmute | ⟨-, hmarked⟩
    · exact hmute.refuses ap hpass
    · obtain ⟨hin, hfound⟩ := memmgrAssert_iff.1 hpass
      exact hmarked ap hap hin hfound

end Inv

/-- **What `memmgr_assert` is worth in every reachable session.** -/
theorem assert_judges {s : State} {buffer : Nat} {length baseAddress : UInt32} {S : Session}
    (hs : s.session = 0) (hp : buffer = 0 ∨ Placed e buffer length)
    (h : Reachable e s buffer length baseAddress S) : Judges e S := by
  obtain ⟨bs, I⟩ := h.inv hs hp
  refine ⟨I.right, fun ap hap => ?_, fun ap _ => ?_, fun hmute q h1 h2 =>
    I.passes_of_three hmute h1 h2⟩
  · obtain ⟨p, n, hlive, h1, h2⟩ := id hap
    have hnoted := h.noted hs hp p n hlive
    obtain ⟨P, h3, h4⟩ := I.held_bounds hap
    refine ⟨by omega, ?_⟩
    rw [← Bool.not_eq_true, memmgrAssert_iff, not_and_or]
    refine or_congr ⟨fun hout => ?_, fun hover hin => (inPool_iff.1 hin).2.1 hover⟩ ?_
    · by_contra hover
      exact hout (inPool_of_le P.pool_pos.ne' hover (by omega) (by omega))
    · exact ⟨fun hno i hi hun => hno ⟨i, hi, hun⟩, fun hall ⟨i, hi, hun⟩ => hall i hi hun⟩
  · rw [memmgrAssert_iff, inPool_iff]
    rfl

/-- With a block held in a pool of 640 bytes it is wrong about some pointer. -/
theorem assert_judges_zynq : ∃ S,
    Reachable Env.zynq (State.loaded fun _ => 0) 0x100000 640 0x1f410000 S ∧
      S.live = [(0x1000f0, 40)] ∧ Judges Env.zynq S ∧
      ¬∀ ap, ap < Env.zynq.range → (memmgrAssert Env.zynq S.st ap = true ↔ S.Held ap) := by
  obtain ⟨S, hS, hlive⟩ := zynq_reachable
  have hjudges := assert_judges rfl (Or.inr zynq_placed) hS
  refine ⟨S, hS, hlive, hjudges, fun hall => (hjudges.right.1 hall).1 0x1000f0 ⟨0x1000f0, 40, ?_⟩⟩
  rw [hlive]
  exact ⟨List.mem_singleton.2 rfl, by decide, by decide⟩

/-- **A pointer to a header passes**: of the first header, after one allocation. -/
theorem assert_passes_header : ∃ S,
    Reachable Env.zynq (State.loaded fun _ => 0) 0x100000 640 0x1f410000 S ∧
      memmgrAssert Env.zynq S.st 0x100000 = true ∧ ¬S.Held 0x100000 := by
  have h : (memmgrAlloc Env.zynq 100 (memmgrInit Env.zynq (State.loaded fun _ => 0) 0x100000 640
      0x1f410000) 16).map (fun r => (r.1, memmgrAssert Env.zynq r.2 0x100000)) =
      some (0x10012c, true) := by
    decide +kernel
  obtain ⟨⟨p, s⟩, halloc, hp⟩ := Option.map_eq_some_iff.1 h
  obtain ⟨rfl, hassert⟩ := Prod.mk.inj hp
  refine ⟨⟨s, _⟩, .tail .refl ⟨_, trivial, .alloc (by decide) halloc⟩, hassert, ?_⟩
  rintro ⟨p, n, hmem, hle, -⟩
  obtain ⟨rfl, rfl⟩ := Prod.mk.inj (List.mem_singleton.1 hmem)
  exact absurd hle (by decide)

end Memmgr
end Zedboard
