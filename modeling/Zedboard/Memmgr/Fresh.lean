import Zedboard.Memmgr.Assert
import Zedboard.Memmgr.Sessions

/-!
# What is left of a session

`memmgr_destroy` resets all the variables but one: `largest_allocation` keeps the size of the
largest request of the sessions that are gone, and `memmgr_assert` goes by it.

* `Twin` relates a process that has destroyed a session to one that has just been loaded, and every
  call keeps it (`Twin.run`);
* `sessions_isolated` says when the two cannot be told apart: when no assertion is decided by a
  place between the two values of that variable.
-/

set_option autoImplicit false

namespace Zedboard
namespace Memmgr

variable {e : Env} {s s' : State}

/-! ## Calls and their replies -/

/-- What the call returns and leaves, if it comes back. -/
def Call.run (e : Env) (fuel : Nat) (s : State) : Call → Option (Int × State)
  | .init buffer length baseAddress => some (0, memmgrInit e s buffer length baseAddress)
  | .initCheck buffer length baseAddress => some (0, memmgrInitCheck e s buffer length baseAddress)
  | .initCheckSharedMem os length baseAddress =>
    let r := memmgrInitCheckSharedMem e os s length baseAddress
    some (r.1, r.2.1)
  | .destroy => some (0, (memmgrDestroy e s).1)
  | .alloc nbytes => (memmgrAlloc e fuel s nbytes).map fun r => (r.1, r.2)
  | .free ap => (memmgrFree e fuel s ap).map fun s => (0, s)
  | .stores mem => some (0, { s with mem := mem })

/-- A call, or a question about a pointer. -/
inductive Use
  | call (c : Call)
  | lookup (ap : Nat)
  | assert (ap : Nat)

/-- What it returns and leaves.  There is nothing when the process is aborted. -/
def Use.run (e : Env) (fuel : Nat) (s : State) : Use → Option (Int × State)
  | .call c => c.run e fuel s
  | .lookup ap => some ((lookupBufferPhysicalAddress s ap).toNat, s)
  | .assert ap => if memmgrAssert e s ap then some (0, s) else none

/-- The results of a sequence of uses, as far as it comes. -/
def results (e : Env) (fuel : Nat) : State → List Use → List (Option Int)
  | _, [] => []
  | s, u :: us =>
    match u.run e fuel s with
    | some (v, s') => some v :: results e fuel s' us
    | none => [none]

/-- The state that a sequence of uses leaves, if it comes to its end. -/
def after (e : Env) (fuel : Nat) (s : State) (us : List Use) : Option State :=
  us.foldlM (fun s u => (u.run e fuel s).map Prod.snd) s

/-! ## The variable that is kept -/

/-- The state with another value of `largest_allocation`. -/
def State.withLargest (s : State) (L : UInt32) : State := { s with largestAllocation := L }

namespace State

variable (L : UInt32) (p v : Nat)

@[simp] theorem withLargest_pool : (s.withLargest L).pool = s.pool := rfl
@[simp] theorem withLargest_poolSize : (s.withLargest L).poolSize = s.poolSize := rfl
@[simp] theorem withLargest_poolFreePos : (s.withLargest L).poolFreePos = s.poolFreePos := rfl

@[simp] theorem setSize_withLargest :
    (s.withLargest L).setSize e p v = (s.setSize e p v).withLargest L := rfl

@[simp] theorem setNonce_withLargest :
    (s.withLargest L).setNonce e p v = (s.setNonce e p v).withLargest L := rfl

@[simp] theorem setNonce2_withLargest :
    (s.withLargest L).setNonce2 e p v = (s.setNonce2 e p v).withLargest L := rfl

@[simp] theorem setOffset_withLargest :
    (s.withLargest L).setOffset e p v = (s.setOffset e p v).withLargest L := rfl

end State

/-- The merge of a block with its higher neighbour, if that is free. -/
def mergeHigher (e : Env) (s : State) (block p : Nat) : State :=
  if e.ptrAdd block (s.size e block) = s.next e p then
    let s := s.setSize e block (e.ulong (s.size e block + s.size e (s.next e p)))
    s.setNext e block (s.next e (s.next e p))
  else s.setNext e block (s.next e p)

/-- The merge with its lower neighbour. -/
def mergeLower (e : Env) (s : State) (block p : Nat) : State :=
  if e.ptrAdd p (s.size e p) = block then
    let s := s.setSize e p (e.ulong (s.size e p + s.size e block))
    s.setNext e p (s.next e block)
  else s.setNext e p block

/-- Without a pool or a block `memmgr_free` does nothing. -/
theorem memmgrFree_noop {fuel ap : Nat} (h : s.pool = 0 ∨ ap = 0) :
    memmgrFree e fuel s ap = some s := by
  rw [memmgrFree]
  by_cases hpool : s.pool = 0
  · exact if_pos hpool
  · rw [if_neg hpool, if_pos (h.resolve_left hpool)]

/-- Otherwise it is a scan and two merges. -/
theorem memmgrFree_eq {fuel ap : Nat} (h : ¬(s.pool = 0 ∨ ap = 0)) : memmgrFree e fuel s ap =
    (seek (s.next e) (stops (s.next e) (e.ptrPred ap)) fuel s.freep).map fun p =>
      { mergeLower e (mergeHigher e s (e.ptrPred ap) p) (e.ptrPred ap) p with freep := p } := by
  rw [not_or] at h
  rw [memmgrFree, if_neg h.1, if_neg h.2]
  dsimp only
  cases seek (s.next e) (stops (s.next e) (e.ptrPred ap)) fuel s.freep <;> rfl

theorem mergeHigher_withLargest (s : State) (L : UInt32) (block p : Nat) :
    mergeHigher e (s.withLargest L) block p = (mergeHigher e s block p).withLargest L := by
  rw [mergeHigher, mergeHigher]
  by_cases h : e.ptrAdd block (s.size e block) = s.next e p
  · rw [if_pos h]
    exact if_pos h
  · rw [if_neg h]
    exact if_neg h

theorem mergeLower_withLargest (s : State) (L : UInt32) (block p : Nat) :
    mergeLower e (s.withLargest L) block p = (mergeLower e s block p).withLargest L := by
  rw [mergeLower, mergeLower]
  by_cases h : e.ptrAdd p (s.size e p) = block
  · rw [if_pos h]
    exact if_pos h
  · rw [if_neg h]
    exact if_neg h

/-- `memmgr_free` does not look at it. -/
theorem free_withLargest (fuel : Nat) (s : State) (L : UInt32) (ap : Nat) :
    memmgrFree e fuel (s.withLargest L) ap =
      (memmgrFree e fuel s ap).map fun s => s.withLargest L := by
  by_cases h : s.pool = 0 ∨ ap = 0
  · rw [memmgrFree_noop h, memmgrFree_noop (s := s.withLargest L) h]
    rfl
  · rw [memmgrFree_eq h, memmgrFree_eq (s := s.withLargest L) h, Option.map_map]
    simp only [mergeHigher_withLargest, mergeLower_withLargest]
    rfl

/-- Nor does `get_mem_from_pool`. -/
theorem getMemFromPool_withLargest (fuel : Nat) (s : State) (L : UInt32) (nq : Nat) :
    getMemFromPool e fuel (s.withLargest L) nq =
      (getMemFromPool e fuel s nq).map fun r => (r.1, r.2.withLargest L) := by
  rw [getMemFromPool, getMemFromPool]
  simp only [State.withLargest_pool, State.withLargest_poolFreePos, State.withLargest_poolSize,
    State.setSize_withLargest, State.setNonce_withLargest, State.setNonce2_withLargest,
    State.setOffset_withLargest, free_withLargest]
  split
  · rfl
  generalize (if nq < minPoolAllocQuantas then minPoolAllocQuantas else nq) = k
  split
  · cases memmgrFree e fuel _ _ <;> rfl
  · rfl

/-- Taking a block keeps it up. -/
theorem take_withLargest (n nq : Nat) (s : State) (L : UInt32) (prevp p : Nat) :
    take e n nq (s.withLargest L) prevp p = ((take e n nq s prevp p).1,
      (take e n nq s prevp p).2.withLargest (if L.toNat < n then UInt32.ofNat n else L)) := by
  have hlarge : ∀ t : State, (if (t.withLargest L).largestAllocation.toNat < n then
      { t.withLargest L with freep := prevp, largestAllocation := UInt32.ofNat n }
      else { t.withLargest L with freep := prevp }) =
      (if t.largestAllocation.toNat < n then
        { t with freep := prevp, largestAllocation := UInt32.ofNat n }
      else { t with freep := prevp }).withLargest (if L.toNat < n then UInt32.ofNat n else L) := by
    intro t
    by_cases hL : L.toNat < n
    · rw [if_pos hL]
      refine (if_pos hL).trans ?_
      split <;> rfl
    · rw [if_neg hL]
      refine (if_neg hL).trans ?_
      split <;> rfl
  rw [take, take]
  dsimp only
  by_cases h : s.size e p = nq
  · have h' : (s.withLargest L).size e p = nq := h
    rw [if_pos h, if_pos h']
    exact Prod.ext rfl (hlarge (s.setNext e prevp (s.next e p)))
  · have h' : ¬(s.withLargest L).size e p = nq := h
    rw [if_neg h, if_neg h']
    exact Prod.ext rfl (hlarge ((s.setSize e p (s.size e p - nq)).setSize e
      (e.ptrAdd p ((s.setSize e p (s.size e p - nq)).size e p)) nq))

/-- `memmgr_alloc` only keeps it up. -/
theorem allocLoop_withLargest {scanFuel n nq : Nat} : ∀ (fuel : Nat) (s : State) (L : UInt32)
    (prevp p : Nat), ∃ L', allocLoop e scanFuel n nq fuel (s.withLargest L) prevp p =
      (allocLoop e scanFuel n nq fuel s prevp p).map fun r => (r.1, r.2.withLargest L')
  | 0, _, L, _, _ => ⟨L, rfl⟩
  | fuel + 1, s, L, prevp, p => by
    rw [allocLoop, allocLoop, getMemFromPool_withLargest]
    by_cases hsize : nq ≤ s.size e p
    · rw [if_pos hsize]
      refine ⟨if L.toNat < n then UInt32.ofNat n else L, (if_pos hsize).trans ?_⟩
      rw [take_withLargest]
      rfl
    rw [if_neg hsize]
    by_cases hp : p = s.freep
    · rw [if_pos hp]
      cases hget : getMemFromPool e scanFuel s nq with
      | none => exact ⟨L, (if_neg hsize).trans (if_pos hp)⟩
      | some r =>
        by_cases hq : r.1 = 0
        · refine ⟨L, ((if_neg hsize).trans (if_pos hp)).trans ?_⟩
          dsimp only [Option.map]
          rw [if_pos hq, if_pos hq]
        · obtain ⟨L', hL'⟩ := allocLoop_withLargest fuel r.2 L r.1 (r.2.next e r.1)
          refine ⟨L', ((if_neg hsize).trans (if_pos hp)).trans ?_⟩
          dsimp only [Option.map]
          rw [if_neg hq, if_neg hq]
          exact hL'
    · rw [if_neg hp]
      obtain ⟨L', hL'⟩ := allocLoop_withLargest fuel s L p (s.next e p)
      exact ⟨L', ((if_neg hsize).trans (if_neg hp)).trans hL'⟩

theorem alloc_withLargest (fuel : Nat) (s : State) (L : UInt32) (n : Nat) :
    ∃ L', memmgrAlloc e fuel (s.withLargest L) n =
      (memmgrAlloc e fuel s n).map fun r => (r.1, r.2.withLargest L') := by
  rw [memmgrAlloc, memmgrAlloc]
  by_cases hpool : s.pool = 0
  · rw [if_pos hpool]
    exact ⟨L, if_pos hpool⟩
  by_cases hsession : s.session = 0
  · rw [if_neg hpool, if_pos hsession]
    exact ⟨L, (if_neg hpool).trans (if_pos hsession)⟩
  have hstart : startList e (s.withLargest L) = (startList e s).withLargest L := by
    rw [startList, startList]
    by_cases h : s.freep = 0
    · rw [if_pos h]
      exact if_pos h
    · rw [if_neg h]
      exact if_neg h
  rw [if_neg hpool, if_neg hsession, hstart]
  obtain ⟨L', hL'⟩ := allocLoop_withLargest (e := e) fuel (startList e s) L (startList e s).freep
    ((startList e s).next e (startList e s).freep)
  exact ⟨L', ((if_neg hpool).trans (if_neg hsession)).trans hL'⟩

/-! ## Two processes -/

/-- The two memories differ at most in the fields of `base` that `memmgr_init` writes. -/
def Alike (e : Env) (m m' : Mem) : Prop :=
  ∀ x, x < e.base ∨ e.base + 2 * e.word + 8 ≤ x → m' x = m x

/-- Two processes between which only the variable makes a difference: both are in the same state but
for its value, or both have no session. -/
inductive Twin (e : Env) : State → State → Prop
  | same (s : State) (L : UInt32) : Twin e s (s.withLargest L)
  | idle {m m' : Mem} (L L' : UInt32) (h : Alike e m m') :
      Twin e ((State.loaded m).withLargest L) ((State.loaded m').withLargest L')

/-- `memmgr_init` makes the two memories the same. -/
theorem init_alike {m m' : Mem} (h : Alike e m m') (buffer : Nat) (length baseAddress : UInt32) :
    (memmgrInit e (State.loaded m') buffer length baseAddress).mem =
      (memmgrInit e (State.loaded m) buffer length baseAddress).mem := by
  have hs : ∀ m : Mem, (memmgrInit e (State.loaded m) buffer length baseAddress).mem =
      (((m.writeLE e.word e.base 0).writeLE e.word (e.base + e.word) 0).writeLE 4
        (e.base + 2 * e.word) nonce).writeLE 4 (e.base + 2 * e.word + 4) nonce2 := fun _ => rfl
  rw [hs, hs]
  funext x
  simp only [Mem.writeLE]
  split
  · rfl
  split
  · rfl
  split
  · rfl
  split
  · rfl
  · exact h x (by omega)

/-- Opening a session makes twins the same. -/
theorem Twin.init {m m' : Mem} (L L' : UInt32) (h : Alike e m m') (sharedMem : Option SharedMemory)
    (buffer : Nat) (length baseAddress : UInt32) :
    Twin e (memmgrInit e { (State.loaded m).withLargest L with sharedMem }
      buffer length baseAddress)
      (memmgrInit e { (State.loaded m').withLargest L' with sharedMem } buffer length
        baseAddress) := by
  have hs : ∀ (m : Mem) (L : UInt32),
      memmgrInit e { (State.loaded m).withLargest L with sharedMem } buffer length baseAddress =
      ⟨(memmgrInit e (State.loaded m) buffer length baseAddress).mem, L, 0, length, buffer,
        baseAddress, 0, 1, sharedMem⟩ := fun _ _ => rfl
  rw [hs, hs, init_alike h]
  exact Twin.same _ L'

/-- The same write keeps memories alike. -/
theorem Alike.write {m m' : Mem} (h : Alike e m m') (k a v : Nat) :
    Alike e (m.writeLE k a v) (m'.writeLE k a v) := by
  intro x hx
  rw [Mem.writeLE, Mem.writeLE]
  split
  · rfl
  · exact h x hx

theorem init_withLargest (s : State) (L : UInt32) (buffer : Nat) (length baseAddress : UInt32) :
    memmgrInit e (s.withLargest L) buffer length baseAddress =
      (memmgrInit e s buffer length baseAddress).withLargest L := by
  rw [memmgrInit, memmgrInit]
  by_cases h : s.session = 0
  · rw [if_pos h]
    exact if_pos h
  · rw [if_neg h]
    exact if_neg h

theorem initCheckSharedMem_withLargest (os : OsReply) (s : State) (L : UInt32)
    (length baseAddress : UInt32) :
    ∃ rc t log, memmgrInitCheckSharedMem e os s length baseAddress = (rc, t, log) ∧
      memmgrInitCheckSharedMem e os (s.withLargest L) length baseAddress =
        (rc, t.withLargest L, log) := by
  rw [memmgrInitCheckSharedMem, memmgrInitCheckSharedMem]
  by_cases h : s.session = 1
  · rw [if_pos h]
    exact ⟨_, _, _, rfl, if_pos h⟩
  rw [if_neg h]
  have hmem : (s.withLargest L).sharedMem = s.sharedMem := rfl
  rw [hmem]
  cases s.sharedMem with
  | some mem =>
    refine ⟨_, _, _, rfl, (if_neg h).trans ?_⟩
    dsimp only
    rw [initCheck_eq, initCheck_eq, init_withLargest]
  | none =>
    cases getSharedMemoryArea os baseAddressConst.toUInt64 sharedSize with
    | mk area log =>
      cases area with
      | none => exact ⟨_, _, _, rfl, if_neg h⟩
      | some mem =>
        refine ⟨_, _, _, rfl, (if_neg h).trans ?_⟩
        dsimp only
        rw [initCheck_eq, initCheck_eq]
        exact congrArg (fun t => (0, t, log))
          (init_withLargest { s with sharedMem := some mem } L ..)

/-- A call that comes back in one process does so in its twin, with the same value. -/
def Alongside (e : Env) (r r' : Option (Int × State)) : Prop :=
  (r = none ∧ r' = none) ∨ ∃ v t t', r = some (v, t) ∧ r' = some (v, t') ∧ Twin e t t'

/-- **Every call keeps twins.** -/
theorem Twin.run {s s' : State} (T : Twin e s s') (fuel : Nat) (c : Call) :
    Alongside e (c.run e fuel s) (c.run e fuel s') := by
  cases T with
  | same s L =>
    cases c with
    | init b l a =>
      refine Or.inr ⟨_, _, _, rfl, rfl, ?_⟩
      rw [init_withLargest]
      exact .same _ L
    | initCheck b l a =>
      refine Or.inr ⟨_, _, _, rfl, rfl, ?_⟩
      rw [initCheck_eq, initCheck_eq, init_withLargest]
      exact .same _ L
    | initCheckSharedMem os l a =>
      obtain ⟨rc, t, log, h, h'⟩ := initCheckSharedMem_withLargest (e := e) os s L l a
      refine Or.inr ⟨rc, t, _, ?_, ?_, .same t L⟩
      · rw [Call.run, h]
      · rw [Call.run, h']
    | destroy => exact Or.inr ⟨_, _, _, rfl, rfl, .same _ L⟩
    | alloc n =>
      obtain ⟨L', h⟩ := alloc_withLargest (e := e) fuel s L n
      rw [Call.run, Call.run, h]
      cases memmgrAlloc e fuel s n with
      | none => exact Or.inl ⟨rfl, rfl⟩
      | some r => exact Or.inr ⟨_, _, _, rfl, rfl, .same r.2 L'⟩
    | free ap =>
      rw [Call.run, Call.run, free_withLargest]
      cases memmgrFree e fuel s ap with
      | none => exact Or.inl ⟨rfl, rfl⟩
      | some t => exact Or.inr ⟨_, _, _, rfl, rfl, .same t L⟩
    | stores mem => exact Or.inr ⟨_, _, _, rfl, rfl, .same _ L⟩
  | @idle m m' L L' h =>
    cases c with
    | init b l a => exact Or.inr ⟨_, _, _, rfl, rfl, Twin.init L L' h none b l a⟩
    | initCheck b l a => exact Or.inr ⟨_, _, _, rfl, rfl, Twin.init L L' h none b l a⟩
    | initCheckSharedMem os l a =>
      rw [Call.run, Call.run, memmgrInitCheckSharedMem, memmgrInitCheckSharedMem]
      cases getSharedMemoryArea os baseAddressConst.toUInt64 sharedSize with
      | mk area log =>
        cases area with
        | none => exact Or.inr ⟨_, _, _, rfl, rfl, .idle L L' h⟩
        | some mem => exact Or.inr ⟨_, _, _, rfl, rfl, Twin.init L L' h (some mem) mem.ptr l a⟩
    | destroy =>
      exact Or.inr ⟨_, _, _, rfl, rfl, .idle L L' ((h.write _ _ _).write _ _ _)⟩
    | alloc n => exact Or.inr ⟨_, _, _, rfl, rfl, .idle L L' h⟩
    | free ap => exact Or.inr ⟨_, _, _, rfl, rfl, .idle L L' h⟩
    | stores mem => exact Or.inr ⟨_, _, _, rfl, rfl, .idle L L' fun _ _ => rfl⟩

/-! ## Assertions -/

/-- No place between the two values of the variable decides: one that has no nonce comes after one
that both of them reach. -/
def Settled (e : Env) (s s' : State) (ap : Nat) : Prop :=
  InPool s ap → ∀ i, min s.largestAllocation.toNat s'.largestAllocation.toNat ≤ i →
    i < max s.largestAllocation.toNat s'.largestAllocation.toNat → Unmarked e s (back e ap i) →
    ∃ j, j < min s.largestAllocation.toNat s'.largestAllocation.toNat ∧
      Unmarked e s (back e ap j)

/-- Two bounds of a search make no difference. -/
theorem exists_lt_iff_exists_lt {P : Nat → Prop} {a b : Nat} :
    ((∃ i, i < a ∧ P i) ↔ ∃ i, i < b ∧ P i) ↔
      ∀ i, min a b ≤ i → i < max a b → P i → ∃ j, j < min a b ∧ P j := by
  rcases le_total a b with h | h
  · rw [min_eq_left h, max_eq_right h]
    constructor
    · exact fun heq i _ hi hP => heq.2 ⟨i, hi, hP⟩
    · refine fun hall => ⟨fun ⟨i, hi, hP⟩ => ⟨i, hi.trans_le h, hP⟩, fun ⟨i, hi, hP⟩ => ?_⟩
      rcases lt_or_ge i a with hia | hia
      · exact ⟨i, hia, hP⟩
      · exact hall i hia hi hP
  · rw [min_eq_right h, max_eq_left h]
    constructor
    · exact fun heq i _ hi hP => heq.1 ⟨i, hi, hP⟩
    · refine fun hall => ⟨fun ⟨i, hi, hP⟩ => ?_, fun ⟨i, hi, hP⟩ => ⟨i, hi.trans_le h, hP⟩⟩
      rcases lt_or_ge i b with hib | hib
      · exact ⟨i, hib, hP⟩
      · exact hall i hib hi hP

/-- Twins give the same answer to an assertion exactly when it is settled. -/
theorem Twin.assert_iff {s s' : State} (T : Twin e s s') (ap : Nat) :
    memmgrAssert e s ap = memmgrAssert e s' ap ↔ Settled e s s' ap := by
  rw [Bool.eq_iff_iff, memmgrAssert_iff, memmgrAssert_iff]
  cases T with
  | same s L =>
    have hin : InPool (s.withLargest L) ap ↔ InPool s ap := Iff.rfl
    rw [hin, Settled, and_congr_right_iff]
    exact imp_congr_right fun _ => exists_lt_iff_exists_lt
  | idle L L' h =>
    refine iff_of_true (iff_of_false ?_ ?_) fun hin => ?_
    · exact fun hin => hin.1.1 rfl
    · exact fun hin => hin.1.1 rfl
    · exact absurd rfl hin.1

/-- Twins look up the same addresses. -/
theorem Twin.lookup_eq {s s' : State} (T : Twin e s s') (ap : Nat) :
    lookupBufferPhysicalAddress s' ap = lookupBufferPhysicalAddress s ap := by
  cases T <;> rfl

/-- Twins stay together in every use, or part in an assertion that is not settled. -/
theorem Twin.use {s s' : State} (T : Twin e s s') (fuel : Nat) (u : Use) :
    (Alongside e (u.run e fuel s) (u.run e fuel s') ∧ ∀ ap, u = .assert ap → Settled e s s' ap) ∨
    ∃ ap, u = .assert ap ∧ ¬Settled e s s' ap ∧
      (u.run e fuel s).isSome ≠ (u.run e fuel s').isSome := by
  cases u with
  | call c => exact Or.inl ⟨T.run fuel c, fun _ h => Use.noConfusion h⟩
  | lookup ap =>
    refine Or.inl ⟨Or.inr ⟨_, s, s', rfl, ?_, T⟩, fun _ h => Use.noConfusion h⟩
    rw [Use.run, T.lookup_eq]
  | assert ap =>
    have hisSome : ∀ s : State, ((Use.assert ap).run e fuel s).isSome = memmgrAssert e s ap := by
      intro s
      rw [Use.run]
      cases memmgrAssert e s ap <;> rfl
    by_cases h : memmgrAssert e s ap = memmgrAssert e s' ap
    · have hsettled := (T.assert_iff ap).1 h
      refine Or.inl ⟨?_, fun ap' hap => by cases hap; exact hsettled⟩
      rw [Use.run, Use.run, ← h]
      cases memmgrAssert e s ap
      · exact Or.inl ⟨rfl, rfl⟩
      · exact Or.inr ⟨0, s, s', rfl, rfl, T⟩
    · refine Or.inr ⟨ap, rfl, fun hsettled => h ((T.assert_iff ap).2 hsettled), ?_⟩
      rw [hisSome, hisSome]
      exact h

/-- Every assertion of the sequence that both processes come to is settled where they come to it. -/
def AllSettled (e : Env) (fuel : Nat) (s s' : State) (us : List Use) : Prop :=
  ∀ pre ap post t t', us = pre ++ .assert ap :: post → after e fuel s pre = some t →
    after e fuel s' pre = some t' → Settled e t t' ap

theorem allSettled_cons {s s' : State} {fuel : Nat} {u : Use} {us : List Use} :
    AllSettled e fuel s s' (u :: us) ↔ (∀ ap, u = .assert ap → Settled e s s' ap) ∧
      ∀ v v' t t', u.run e fuel s = some (v, t) → u.run e fuel s' = some (v', t') →
        AllSettled e fuel t t' us := by
  constructor
  · intro h
    refine ⟨fun ap hu => h [] ap us s s' (by rw [hu]; rfl) rfl rfl, ?_⟩
    intro v v' t t' ht ht' pre ap post x x' hus hx hx'
    refine h (u :: pre) ap post x x' (by rw [hus]; rfl) ?_ ?_
    · rw [after, List.foldlM_cons, ht]
      exact hx
    · rw [after, List.foldlM_cons, ht']
      exact hx'
  · rintro ⟨hhead, htail⟩ pre ap post x x' hus hx hx'
    cases pre with
    | nil =>
      obtain ⟨rfl, -⟩ := List.cons.inj hus
      obtain rfl := Option.some.inj hx
      obtain rfl := Option.some.inj hx'
      exact hhead ap rfl
    | cons u' pre =>
      obtain ⟨rfl, rfl⟩ := List.cons.inj hus
      rw [after, List.foldlM_cons] at hx hx'
      obtain ⟨t, ht, hx⟩ := Option.bind_eq_some_iff.1 hx
      obtain ⟨t', ht', hx'⟩ := Option.bind_eq_some_iff.1 hx'
      obtain ⟨⟨v, t⟩, hv, rfl⟩ := Option.map_eq_some_iff.1 ht
      obtain ⟨⟨v', t'⟩, hv', rfl⟩ := Option.map_eq_some_iff.1 ht'
      exact htail v v' t t' hv hv' pre ap post x x' rfl hx hx'

/-- **Twins give the same results exactly when every assertion is settled.** -/
theorem Twin.results_iff {fuel : Nat} {us : List Use} : ∀ {s s' : State}, Twin e s s' →
    (results e fuel s us = results e fuel s' us ↔ AllSettled e fuel s s' us) := by
  induction us with
  | nil =>
    refine fun _ => iff_of_true rfl fun pre ap post t t' h => ?_
    exact absurd h (by simp)
  | cons u us ih =>
    intro s s' T
    rw [results, results, allSettled_cons]
    rcases T.use fuel u with ⟨⟨h, h'⟩ | ⟨v, t, t', h, h', T'⟩, hhead⟩ | ⟨ap, hu, hnot, hdiff⟩
    · rw [h, h']
      exact iff_of_true rfl ⟨hhead, fun v v' t t' ht => absurd ht (by simp)⟩
    · rw [h, h']
      refine (List.cons_eq_cons.trans (and_iff_right rfl)).trans ((ih T').trans ?_)
      constructor
      · intro hall
        refine ⟨hhead, fun v₁ v₁' x x' hx hx' => ?_⟩
        obtain ⟨rfl, rfl⟩ := Prod.mk.inj (Option.some.inj hx)
        obtain ⟨rfl, rfl⟩ := Prod.mk.inj (Option.some.inj hx')
        exact hall
      · exact fun ⟨_, htail⟩ => htail v v t t' rfl rfl
    · refine iff_of_false (fun heq => hdiff ?_) fun hall => hnot (hall.1 ap hu)
      cases hr : u.run e fuel s <;> cases hr' : u.run e fuel s' <;> rw [hr, hr'] at heq
      · exact absurd (List.cons.inj heq).1 (by simp)
      · exact absurd (List.cons.inj heq).1 (by simp)
      · rfl

/-- **A destroyed session leaves nothing behind but what settles assertions.**  Whatever calls have
been made before the session was destroyed, a sequence of uses gives the same results afterwards as
in a process that has just been loaded, exactly when all its assertions are settled. -/
theorem sessions_isolated (s : State) {mem : Mem} (h : Alike e (memmgrDestroy e s).1.mem mem)
    (fuel : Nat) (us : List Use) :
    results e fuel (memmgrDestroy e s).1 us = results e fuel (State.loaded mem) us ↔
      AllSettled e fuel (memmgrDestroy e s).1 (State.loaded mem) us := by
  have hdestroyed : (memmgrDestroy e s).1 =
      (State.loaded (memmgrDestroy e s).1.mem).withLargest s.largestAllocation := by
    rw [memmgrDestroy_eq]
    rfl
  rw [hdestroyed]
  exact Twin.results_iff (.idle _ 0 h)

/-- A process that has served a request of 16 bytes. -/
def zynqServed : Option (Nat × State) :=
  memmgrAlloc Env.zynq 100
    (memmgrInit Env.zynq (State.loaded fun _ => 0) 0x100000 640 0x1f410000) 16

/-- The memory of a process that has just been loaded, when it has the buffers of `m`. -/
def reload (m : Mem) : Mem := m.fill Env.zynq.base 16 fun _ => 0

theorem alike_reload (m : Mem) : Alike Env.zynq m (reload m) := fun _ h => m.fill_of_outside _ h

/-- A session with a smaller request, and what is asked about the pointer that it gets. -/
def nextSession : List Use :=
  [.call (.init 0x100000 640 0x1f410000), .call (.alloc 8), .lookup 0x10012c, .assert 0x10012c]

/-- It is served as in a process that has just been loaded. -/
theorem sessions_isolated_zynq : ∃ r, zynqServed = some r ∧
    results Env.zynq 100 (memmgrDestroy Env.zynq r.2).1 nextSession =
      results Env.zynq 100 (State.loaded (reload (memmgrDestroy Env.zynq r.2).1.mem))
        nextSession := by
  -- the two values of the variable differ, but the place of the pointer itself has no nonce
  have h : (zynqServed.bind fun r =>
      (after Env.zynq 100 (memmgrDestroy Env.zynq r.2).1 (nextSession.take 3)).bind fun t =>
        (after Env.zynq 100 (State.loaded (reload (memmgrDestroy Env.zynq r.2).1.mem))
          (nextSession.take 3)).map fun t' =>
            [t.largestAllocation.toNat, t'.largestAllocation.toNat, t.nonceAt Env.zynq 0x10012c,
              t.nonce2At Env.zynq 0x10012c]) = some [16, 8, 0, 0] := by
    decide +kernel
  simp only [Option.bind_eq_some_iff, Option.map_eq_some_iff, List.cons.injEq, and_true] at h
  obtain ⟨r, hr, t, ht, t', ht', hlargest, hlargest', hnonce, hnonce2⟩ := h
  refine ⟨r, hr, (sessions_isolated r.2 (alike_reload _) 100 _).2 ?_⟩
  intro pre ap post x x' hus hx hx'
  obtain ⟨rfl, rfl⟩ : pre = nextSession.take 3 ∧ ap = 0x10012c := by
    rcases pre with _ | ⟨u₁, _ | ⟨u₂, _ | ⟨u₃, _ | ⟨u₄, pre⟩⟩⟩⟩ <;> simp [nextSession] at hus ⊢
    simp [← hus.1, ← hus.2.1, ← hus.2.2.1, hus.2.2.2.1]
  obtain rfl := Option.some.inj (ht.symm.trans hx)
  obtain rfl := Option.some.inj (ht'.symm.trans hx')
  intro _ i _ _ _
  refine ⟨0, by rw [hlargest, hlargest']; decide, ?_⟩
  rw [show back Env.zynq 0x10012c 0 = 0x10012c from back_zero (by decide)]
  exact ⟨by rw [hnonce]; decide, by rw [hnonce2]; decide⟩

/-- **An assertion tells the two apart**: the first one of the next session, about a pointer that
nobody has been given. -/
theorem sessions_leak : ∃ r, zynqServed = some r ∧
    results Env.zynq 100 (memmgrDestroy Env.zynq r.2).1
        [.call (.init 0x100000 640 0x1f410000), .assert 0x100000] = [some 0, some 0] ∧
    results Env.zynq 100 (State.loaded (reload (memmgrDestroy Env.zynq r.2).1.mem))
        [.call (.init 0x100000 640 0x1f410000), .assert 0x100000] = [some 0, none] := by
  have h : zynqServed.map (fun r =>
      (results Env.zynq 100 (memmgrDestroy Env.zynq r.2).1
        [.call (.init 0x100000 640 0x1f410000), .assert 0x100000],
      results Env.zynq 100 (State.loaded (reload (memmgrDestroy Env.zynq r.2).1.mem))
        [.call (.init 0x100000 640 0x1f410000), .assert 0x100000])) =
      some ([some 0, some 0], [some 0, none]) := by
    decide +kernel
  obtain ⟨r, hr, hresults⟩ := Option.map_eq_some_iff.1 h
  exact ⟨r, hr, Prod.mk.inj hresults⟩

end Memmgr
end Zedboard
