import Mathlib.Logic.Relation
import Zedboard.Mapping.Window
import Zedboard.Memmgr.Defs

/-!
# Sessions

The allocator over the life of a process: sessions are opened, by the caller's buffer or by a
mapping of the shared region, and destroyed, in any order and number.

* `Regular` is the invariant of the flag, the pool and the mapping, and `Lawful` is what one call
  does to them;
* `sessions_lawful` says that every reachable state is regular, every call from there lawful, and
  the mapping of the session is the only one that is held, until a mapping is lost for want of
  memory.
-/

set_option autoImplicit false

namespace Zedboard
namespace Memmgr

variable {e : Env} {s s' s'' : State}

/-! ## What allocating and freeing leave alone -/

/-- From `s` to `s'` nothing has happened to the session, its pool or its mapping. -/
def SameSession (s s' : State) : Prop :=
  s' = { s with mem := s'.mem, freep := s'.freep, poolFreePos := s'.poolFreePos,
                largestAllocation := s'.largestAllocation }

namespace SameSession

theorem refl (s : State) : SameSession s s := rfl

theorem trans (h : SameSession s s') (h' : SameSession s' s'') : SameSession s s'' := by
  rw [SameSession, h', h]

theorem session_eq (h : SameSession s s') : s'.session = s.session := by rw [h]

theorem pool_eq (h : SameSession s s') : s'.pool = s.pool := by rw [h]

theorem poolSize_eq (h : SameSession s s') : s'.poolSize = s.poolSize := by rw [h]

theorem baseAddress_eq (h : SameSession s s') : s'.baseAddress = s.baseAddress := by rw [h]

theorem sharedMem_eq (h : SameSession s s') : s'.sharedMem = s.sharedMem := by rw [h]

theorem free {fuel ap : Nat} (h : memmgrFree e fuel s ap = some s') : SameSession s s' := by
  rw [memmgrFree] at h
  split at h
  · obtain rfl := Option.some.inj h
    exact refl s
  split at h
  · obtain rfl := Option.some.inj h
    exact refl s
  dsimp only at h
  split at h
  · exact absurd h (by simp)
  obtain rfl := Option.some.inj h
  split <;> split <;> rfl

theorem getMemFromPool {fuel nq q : Nat} (h : Memmgr.getMemFromPool e fuel s nq = some (q, s')) :
    SameSession s s' := by
  rw [Memmgr.getMemFromPool] at h
  split at h
  · obtain ⟨-, rfl⟩ := Prod.mk.inj (Option.some.inj h)
    exact refl s
  dsimp only at h
  generalize (if nq < minPoolAllocQuantas then minPoolAllocQuantas else nq) = k at h
  split at h
  · split at h
    · exact absurd h (by simp)
    · rename_i s₁ hfree
      obtain ⟨-, rfl⟩ := Prod.mk.inj (Option.some.inj h)
      have h₁ := free hfree
      have hstamp : SameSession s s₁ := by
        rw [SameSession, h₁]
        rfl
      exact hstamp.trans rfl
  · obtain ⟨-, rfl⟩ := Prod.mk.inj (Option.some.inj h)
    exact refl s

theorem take (n nq prevp p : Nat) : SameSession s (Memmgr.take e n nq s prevp p).2 := by
  rw [Memmgr.take]
  dsimp only
  split <;> split <;> rfl

theorem allocLoop {scanFuel n nq : Nat} : ∀ {fuel : Nat} {s : State} {prevp p q : Nat},
    Memmgr.allocLoop e scanFuel n nq fuel s prevp p = some (q, s') → SameSession s s'
  | 0, _, _, _, _, h => absurd h (by simp [Memmgr.allocLoop])
  | fuel + 1, s, prevp, p, q, h => by
    rw [Memmgr.allocLoop] at h
    split at h
    · have htake := take (e := e) (s := s) n nq prevp p
      rwa [Option.some.inj h] at htake
    split at h
    · split at h
      · exact absurd h (by simp)
      · rename_i s₁ hget
        split at h
        · obtain ⟨-, rfl⟩ := Prod.mk.inj (Option.some.inj h)
          exact getMemFromPool hget
        · exact (getMemFromPool hget).trans (allocLoop h)
    · exact allocLoop h

theorem alloc {fuel n p : Nat} (h : memmgrAlloc e fuel s n = some (p, s')) : SameSession s s' := by
  rw [memmgrAlloc] at h
  split at h
  · obtain ⟨-, rfl⟩ := Prod.mk.inj (Option.some.inj h)
    exact refl s
  split at h
  · obtain ⟨-, rfl⟩ := Prod.mk.inj (Option.some.inj h)
    exact refl s
  · have hstart : SameSession s (startList e s) := by
      rw [startList]
      split <;> rfl
    exact hstart.trans (allocLoop h)

end SameSession

/-! ## Calls -/

/-- A call of the allocator, or what its clients make of the memory in between. -/
inductive Call
  | init (buffer : Nat) (length baseAddress : UInt32)
  | initCheck (buffer : Nat) (length baseAddress : UInt32)
  | initCheckSharedMem (os : OsReply) (length baseAddress : UInt32)
  | destroy
  | alloc (nbytes : Nat)
  | free (ap : Nat)
  | stores (mem : Mem)

/-- The call opens a session, if there is none. -/
def Call.isInit : Call → Bool
  | init .. | initCheck .. | initCheckSharedMem .. => true
  | _ => false

/-- The call comes back with a value, a state, and a log of what it has acquired and given back. -/
inductive CallStep (e : Env) (s : State) : Call → Int → State → List OsEvent → Prop
  | init (buffer : Nat) (length baseAddress : UInt32) : CallStep e s
      (.init buffer length baseAddress) 0 (memmgrInit e s buffer length baseAddress) []
  | initCheck (buffer : Nat) (length baseAddress : UInt32) : CallStep e s
      (.initCheck buffer length baseAddress) 0 (memmgrInitCheck e s buffer length baseAddress) []
  | initCheckSharedMem {os : OsReply} {length baseAddress : UInt32} {rc : Int} {s' : State}
      {log : List OsEvent}
      (h : memmgrInitCheckSharedMem e os s length baseAddress = (rc, s', log)) :
      CallStep e s (.initCheckSharedMem os length baseAddress) rc s' log
  | destroy {s' : State} {log : List OsEvent} (h : memmgrDestroy e s = (s', log)) :
      CallStep e s .destroy 0 s' log
  | alloc {nbytes fuel p : Nat} {s' : State} (h : memmgrAlloc e fuel s nbytes = some (p, s')) :
      CallStep e s (.alloc nbytes) p s' []
  | free {ap fuel : Nat} {s' : State} (h : memmgrFree e fuel s ap = some s') :
      CallStep e s (.free ap) 0 s' []
  | stores (mem : Mem) : CallStep e s (.stores mem) 0 { s with mem := mem } []

/-- Any number of calls, each of which meets the condition `Q` where it is made, with their logs one
behind the other. -/
def Calls (e : Env) (Q : State → Call → Prop) : State × List OsEvent →
    State × List OsEvent → Prop :=
  Relation.ReflTransGen fun x y =>
    ∃ c rc log, Q x.1 c ∧ CallStep e x.1 c rc y.1 log ∧ y.2 = x.2 ++ log

/-! ## The invariant -/

/-- The session, the pool and the mapping fit together. -/
structure Regular (s : State) : Prop where
  session : s.session = 0 ∨ s.session = 1
  closed : s.session = 0 → s.pool = 0 ∧ s.sharedMem = none
  mapped : ∀ mem, s.sharedMem = some mem → s.session = 1 ∧ s.pool = mem.ptr

/-- The windows that are mapped and unmapped. -/
def windows : Custody OsEvent (Nat × UInt32) where
  acquires
    | .mapped ptr length _ => some (ptr, length)
    | _ => none
  releases
    | .unmapped ptr length => some (ptr, length)
    | _ => none

/-- The window of the session. -/
def State.window (s : State) : List (Nat × UInt32) :=
  (s.sharedMem.map fun mem => (mem.originalPtr, mem.length)).toList

/-- What a call does to the session. -/
structure Lawful (s : State) (c : Call) (rc : Int) (s' : State) (log : List OsEvent) : Prop where
  /-- The pool changes with the session only. -/
  steady : (s.session = 0 ∧ s'.session = 1) ∨ c = .destroy ∨ (s'.pool = s.pool ∧
    s'.poolSize = s.poolSize ∧ s'.baseAddress = s.baseAddress ∧ s'.sharedMem = s.sharedMem)
  /-- A second session is not opened. -/
  busy : c.isInit → s.session = 1 → s' = s ∧ log = []
  /-- When opening one fails nothing has changed. -/
  failed : c.isInit → rc = -1 ∨ rc = -2 → s' = s
  /-- When it succeeds the pool is the mapping. -/
  opened : ∀ os length baseAddress, c = .initCheckSharedMem os length baseAddress → rc = 0 →
    s'.session = 1 ∧ ∃ mem, s'.sharedMem = some mem ∧ s'.pool = mem.ptr ∧
      getSharedMemoryArea os baseAddressConst.toUInt64 sharedSize = (some mem, log)
  /-- Without a session there is no memory. -/
  closed : s.session = 0 → ∀ n, c = .alloc n → rc = 0
  /-- The end of the session unmaps its window. -/
  unmaps : c = .destroy → log.filterMap windows.releases = s.window
  /-- Nothing else does. -/
  maps : c ≠ .destroy → log.filterMap windows.releases = []

/-! ## One call -/

/-- `memmgr_init_check` is `memmgr_init`. -/
theorem initCheck_eq (s : State) (buffer : Nat) (length baseAddress : UInt32) :
    memmgrInitCheck e s buffer length baseAddress = memmgrInit e s buffer length baseAddress := by
  rw [memmgrInitCheck, memmgrInit]
  split <;> rfl

/-- **What `memmgr_init_check_shared_mem` can do** where the invariant holds. -/
theorem initCheckSharedMem_cases (R : Regular s) {os : OsReply} {length baseAddress : UInt32}
    {rc : Int} {log : List OsEvent}
    (h : memmgrInitCheckSharedMem e os s length baseAddress = (rc, s', log)) :
    (s.session = 1 ∧ rc = -2 ∧ s' = s ∧ log = []) ∨
    (s.session = 0 ∧ rc = -1 ∧ s' = s ∧
      getSharedMemoryArea os baseAddressConst.toUInt64 sharedSize = (none, log)) ∨
    (s.session = 0 ∧ rc = 0 ∧ ∃ mem,
      getSharedMemoryArea os baseAddressConst.toUInt64 sharedSize = (some mem, log) ∧
      s' = memmgrInit e { s with sharedMem := some mem } mem.ptr length baseAddress) := by
  rw [memmgrInitCheckSharedMem] at h
  split at h
  · rename_i hsession
    obtain ⟨rfl, hs⟩ := Prod.mk.inj h
    obtain ⟨rfl, rfl⟩ := Prod.mk.inj hs
    exact Or.inl ⟨hsession, rfl, rfl, rfl⟩
  · rename_i hsession
    have hclosed := R.session.resolve_right hsession
    rw [(R.closed hclosed).2] at h
    dsimp only at h
    split at h
    · rename_i log' harea
      obtain ⟨rfl, hs⟩ := Prod.mk.inj h
      obtain ⟨rfl, rfl⟩ := Prod.mk.inj hs
      exact Or.inr (Or.inl ⟨hclosed, rfl, rfl, harea⟩)
    · rename_i mem log' harea
      obtain ⟨rfl, hs⟩ := Prod.mk.inj h
      obtain ⟨rfl, rfl⟩ := Prod.mk.inj hs
      refine Or.inr (Or.inr ⟨hclosed, rfl, mem, harea, ?_⟩)
      exact initCheck_eq ..

/-- A session is opened, and nothing of what the caller has passed is lost. -/
theorem memmgrInit_eq (hs : s.session = 0) (buffer : Nat) (length baseAddress : UInt32) :
    memmgrInit e s buffer length baseAddress =
      { s with mem := (memmgrInit e s buffer length baseAddress).mem, freep := 0, poolFreePos := 0,
               pool := buffer, poolSize := length, baseAddress := baseAddress, session := 1 } := by
  rw [memmgrInit, if_pos hs]
  rfl

/-- The session is closed, and its mapping given back. -/
theorem memmgrDestroy_eq (s : State) : memmgrDestroy e s =
    ({ s with mem := (memmgrDestroy e s).1.mem, session := 0, sharedMem := none, poolSize := 0,
              pool := 0, freep := 0, poolFreePos := 0, baseAddress := 0 },
      (s.sharedMem.map cleanupSharedMemoryPointer).getD []) := by
  rw [memmgrDestroy]
  cases s.sharedMem <;> rfl

theorem SameSession.regular (h : SameSession s s') (R : Regular s) : Regular s' := by
  rw [h]
  exact ⟨R.session, R.closed, R.mapped⟩

/-- **A call keeps the invariant.** -/
theorem Regular.step (R : Regular s) {c : Call} {rc : Int} {log : List OsEvent}
    (h : CallStep e s c rc s' log) : Regular s' := by
  have hinit : ∀ buffer length baseAddress,
      Regular (memmgrInit e s buffer length baseAddress) := by
    intro buffer length baseAddress
    rcases R.session with hs | hs
    · rw [memmgrInit_eq hs]
      refine ⟨Or.inr rfl, fun h => absurd h Nat.one_ne_zero, fun mem hmem => ?_⟩
      rw [show s.sharedMem = none from (R.closed hs).2] at hmem
      exact absurd hmem (by simp)
    · rw [memmgrInit, if_neg (by omega)]
      exact R
  cases h with
  | init => exact hinit _ _ _
  | initCheck =>
    rw [initCheck_eq]
    exact hinit _ _ _
  | initCheckSharedMem h =>
    rcases initCheckSharedMem_cases R h with ⟨-, -, rfl, -⟩ | ⟨-, -, rfl, -⟩ | ⟨hs, -, mem, -, rfl⟩
    · exact R
    · exact R
    · rw [memmgrInit_eq (show ({ s with sharedMem := some mem } : State).session = 0 from hs)]
      refine ⟨Or.inr rfl, fun h => absurd h Nat.one_ne_zero, fun mem' hmem => ⟨rfl, ?_⟩⟩
      exact congrArg SharedMemory.ptr (Option.some.inj hmem)
  | destroy h =>
    rw [memmgrDestroy_eq] at h
    obtain ⟨rfl, -⟩ := Prod.mk.inj h
    exact ⟨Or.inl rfl, fun _ => ⟨rfl, rfl⟩, fun _ h => absurd h (by simp)⟩
  | alloc h => exact (SameSession.alloc h).regular R
  | free h => exact (SameSession.free h).regular R
  | stores mem => exact ⟨R.session, R.closed, R.mapped⟩

/-- A call that leaves the session alone is lawful. -/
theorem SameSession.lawful (h : SameSession s s') {c : Call} {rc : Int} (hc : c.isInit = false)
    (hd : c ≠ .destroy) (hrc : s.session = 0 → ∀ n, c = .alloc n → rc = 0) :
    Lawful s c rc s' [] where
  steady := Or.inr (Or.inr ⟨h.pool_eq, h.poolSize_eq, h.baseAddress_eq, h.sharedMem_eq⟩)
  busy h := by rw [hc] at h; exact absurd h (by decide)
  failed h := by rw [hc] at h; exact absurd h (by decide)
  opened os length baseAddress h := by rw [h] at hc; exact absurd hc Bool.noConfusion
  closed := hrc
  unmaps h := absurd h hd
  maps _ := rfl

/-- `memmgr_init` and `memmgr_init_check` are lawful. -/
theorem Regular.lawful_init (R : Regular s) {c : Call} (hc : c.isInit)
    (hshared : ∀ os length baseAddress, c ≠ .initCheckSharedMem os length baseAddress)
    (buffer : Nat) (length baseAddress : UInt32) :
    Lawful s c 0 (memmgrInit e s buffer length baseAddress) [] where
  steady := by
    rcases R.session with hs | hs
    · rw [memmgrInit_eq hs]
      exact Or.inl ⟨hs, rfl⟩
    · rw [memmgrInit, if_neg (by omega)]
      exact Or.inr (Or.inr ⟨rfl, rfl, rfl, rfl⟩)
  busy _ hs := by
    rw [memmgrInit, if_neg (by omega)]
    exact ⟨rfl, rfl⟩
  failed _ h := absurd h (by decide)
  opened _ _ _ h := absurd h (hshared _ _ _)
  closed _ n h := by
    subst h
    exact absurd hc Bool.noConfusion
  unmaps h := by
    subst h
    exact absurd hc (by decide)
  maps _ := rfl

/-- An acquisition unmaps nothing. -/
theorem getSharedMemoryArea_unmaps {os : OsReply} {a : UInt64} {length : UInt32}
    {area : Option SharedMemory} {log : List OsEvent}
    (h : getSharedMemoryArea os a length = (area, log)) : log.filterMap windows.releases = [] := by
  have hcases := getSharedMemoryArea_cases os a length
  rw [h] at hcases
  cases hcases <;> rfl

/-- `memmgr_init_check_shared_mem` is lawful. -/
theorem Regular.lawful_shared (R : Regular s) {os : OsReply} {length baseAddress : UInt32}
    {rc : Int}
    {log : List OsEvent}
    (h : memmgrInitCheckSharedMem e os s length baseAddress = (rc, s', log)) :
    Lawful s (.initCheckSharedMem os length baseAddress) rc s' log := by
  have hcases := initCheckSharedMem_cases R h
  refine
    { steady := ?_, busy := fun _ hs => ?_, failed := fun _ hrc => ?_,
      opened := fun os' length' baseAddress' hc hrc => ?_, closed := fun _ _ hc => ?_,
      unmaps := fun hc => ?_, maps := fun _ => ?_ }
  · rcases hcases with ⟨-, -, rfl, -⟩ | ⟨-, -, rfl, -⟩ | ⟨hs, -, mem, -, rfl⟩
    · exact Or.inr (Or.inr ⟨rfl, rfl, rfl, rfl⟩)
    · exact Or.inr (Or.inr ⟨rfl, rfl, rfl, rfl⟩)
    · rw [memmgrInit_eq (show ({ s with sharedMem := some mem } : State).session = 0 from hs)]
      exact Or.inl ⟨hs, rfl⟩
  · rcases hcases with ⟨-, -, rfl, rfl⟩ | ⟨hs', -⟩ | ⟨hs', -⟩
    · exact ⟨rfl, rfl⟩
    · omega
    · omega
  · rcases hcases with ⟨-, -, rfl, -⟩ | ⟨-, -, rfl, -⟩ | ⟨-, rfl, -⟩
    · rfl
    · rfl
    · exact absurd hrc (by decide)
  · cases hc
    rcases hcases with ⟨-, rfl, -⟩ | ⟨-, rfl, -⟩ | ⟨hs, -, mem, harea, rfl⟩
    · exact absurd hrc (by decide)
    · exact absurd hrc (by decide)
    · rw [memmgrInit_eq (show ({ s with sharedMem := some mem } : State).session = 0 from hs)]
      exact ⟨rfl, mem, rfl, rfl, harea⟩
  · exact Call.noConfusion hc
  · exact Call.noConfusion hc
  · rcases hcases with ⟨-, -, -, rfl⟩ | ⟨-, -, -, harea⟩ | ⟨-, -, mem, harea, -⟩
    · rfl
    · exact getSharedMemoryArea_unmaps harea
    · exact getSharedMemoryArea_unmaps harea

/-- `memmgr_destroy` is lawful. -/
theorem lawful_destroy {log : List OsEvent} (h : memmgrDestroy e s = (s', log)) :
    Lawful s .destroy 0 s' log where
  steady := Or.inr (Or.inl rfl)
  busy h := absurd h (by decide)
  failed h := absurd h (by decide)
  opened _ _ _ h := Call.noConfusion h
  closed _ _ h := Call.noConfusion h
  unmaps _ := by
    rw [memmgrDestroy_eq] at h
    obtain ⟨-, rfl⟩ := Prod.mk.inj h
    rw [State.window]
    cases s.sharedMem <;> rfl
  maps h := absurd rfl h

/-- **A call is lawful.** -/
theorem Regular.lawful (R : Regular s) {c : Call} {rc : Int} {log : List OsEvent}
    (h : CallStep e s c rc s' log) : Lawful s c rc s' log := by
  cases h with
  | init => exact R.lawful_init rfl (by simp) _ _ _
  | initCheck =>
    rw [initCheck_eq]
    exact R.lawful_init rfl (by simp) _ _ _
  | initCheckSharedMem h => exact R.lawful_shared h
  | destroy h => exact lawful_destroy h
  | @alloc nbytes fuel p _ h =>
    refine (SameSession.alloc h).lawful rfl (by simp) fun hs n _ => ?_
    rw [memmgrAlloc, if_pos (R.closed hs).1] at h
    rw [← (Prod.mk.inj (Option.some.inj h)).1]
    rfl
  | free h => exact (SameSession.free h).lawful rfl (by simp) fun _ _ h => absurd h (by simp)
  | stores mem =>
    have h : SameSession s { s with mem } := rfl
    exact h.lawful rfl (by simp) fun _ _ h => absurd h (by simp)

/-! ## The mapping -/

/-- No mapping is lost: if a session is opened on a mapping there is memory for its area. -/
def Call.Sound (s : State) : Call → Prop
  | .initCheckSharedMem os _ _ => s.session = 0 → 1 ≤ os.fd → os.map ≠ none → os.block = true
  | _ => True

/-- **The window of the session is the only one that is held after a call, exactly when no mapping
is lost.** -/
theorem Regular.window_iff (R : Regular s) {c : Call} {rc : Int} {log : List OsEvent}
    (h : CallStep e s c rc s' log) :
    windows.Moves s.window log s'.window ↔ c.Sound s := by
  have hquiet : ∀ {x : State}, x.sharedMem = s.sharedMem → windows.Moves s.window [] x.window := by
    intro x hx
    rw [State.window, State.window, hx]
    exact Custody.Moves.refl _
  cases h with
  | init b l a =>
    refine iff_of_true (hquiet ?_) trivial
    rw [memmgrInit]
    split <;> rfl
  | initCheck b l a =>
    refine iff_of_true (hquiet ?_) trivial
    rw [initCheck_eq, memmgrInit]
    split <;> rfl
  | @initCheckSharedMem os length baseAddress _ _ _ h =>
    have hpos : baseAddressConst.toUInt64 ≠ 0 := by decide
    rcases initCheckSharedMem_cases R h with
      ⟨hs, -, rfl, rfl⟩ | ⟨hs, -, rfl, harea⟩ | ⟨hs, -, mem, harea, rfl⟩
    · exact iff_of_true (hquiet rfl) fun h0 => by omega
    · have hcases := getSharedMemoryArea_cases os baseAddressConst.toUInt64 sharedSize
      have hnone : s'.window = [] := by rw [State.window, (R.closed hs).2]; rfl
      rw [harea] at hcases
      rw [hnone]
      cases hcases with
      | unopened hfail =>
        have hfd := hfail.resolve_left hpos
        exact iff_of_true (List.Perm.refl _) fun _ h1 => by omega
      | zero _ hfd => exact iff_of_true (List.Perm.refl _) fun _ h => by omega
      | unmapped _ _ hmap => exact iff_of_true (List.Perm.refl _) fun _ _ h => absurd hmap h
      | lost _ hfd hmap hblock =>
        refine iff_of_false (fun h => absurd h.length_eq (by simp [windows])) fun h => ?_
        have hfalse := h hs hfd (by rw [hmap]; exact Option.some_ne_none _)
        rw [hblock] at hfalse
        exact absurd hfalse (by decide)
    · have hnone : s.window = [] := by rw [State.window, (R.closed hs).2]; rfl
      have hsome : (memmgrInit e { s with sharedMem := some mem } mem.ptr length
          baseAddress).window = [(mem.originalPtr, mem.length)] := by
        rw [memmgrInit_eq (show ({ s with sharedMem := some mem } : State).session = 0 from hs)]
        rfl
      have hblock := block_of_some harea
      obtain ⟨ptr, -, rfl, rfl⟩ := getSharedMemoryArea_some harea
      rw [hnone, hsome]
      exact iff_of_true (List.Perm.refl _) fun _ _ _ => hblock
  | destroy h =>
    rw [memmgrDestroy_eq] at h
    obtain ⟨rfl, rfl⟩ := Prod.mk.inj h
    refine iff_of_true ?_ trivial
    rw [State.window]
    cases s.sharedMem <;> exact List.Perm.refl _
  | alloc h => exact iff_of_true (hquiet (SameSession.alloc h).sharedMem_eq) trivial
  | free h => exact iff_of_true (hquiet (SameSession.free h).sharedMem_eq) trivial
  | stores mem => exact iff_of_true (hquiet rfl) trivial

/-! ## Whole runs -/

/-- **Every reachable state is regular.** -/
theorem Calls.regular {Q : State → Call → Prop} {x : State × List OsEvent} {mem : Mem}
    (h : Calls e Q (State.loaded mem, []) x) : Regular x.1 := by
  induction h with
  | refl => exact ⟨Or.inl rfl, fun _ => ⟨rfl, rfl⟩, fun _ h => absurd h (by simp [State.loaded])⟩
  | tail _ hstep ih =>
    obtain ⟨c, rc, log, -, hcall, -⟩ := hstep
    exact ih.step hcall

/-- As long as no mapping is lost the window of the session is the only one that is held. -/
theorem Calls.window {Q : State → Call → Prop} {x : State × List OsEvent} {mem : Mem}
    (h : Calls e Q (State.loaded mem, []) x) (hQ : ∀ s c, Q s c → c.Sound s) :
    windows.Moves [] x.2 x.1.window := by
  induction h with
  | refl => exact Custody.Moves.refl _
  | tail hrun hstep ih =>
    obtain ⟨c, rc, log, hc, hcall, hlog⟩ := hstep
    rw [hlog]
    exact ih.trans ((Calls.regular hrun).window_iff hcall |>.2 (hQ _ _ hc))

/-- **The session state machine.**  After any calls the state is regular, and every call from there
is lawful.  If the calls have lost no mapping the window of the session is the only one that is
held, and it stays so with one call more exactly when that loses no mapping either. -/
theorem sessions_lawful {Q : State → Call → Prop} {x : State × List OsEvent} {mem : Mem}
    (h : Calls e Q (State.loaded mem, []) x) :
    Regular x.1 ∧
    (∀ c rc s' log, CallStep e x.1 c rc s' log → Lawful x.1 c rc s' log ∧ Regular s') ∧
    ((∀ s c, Q s c → c.Sound s) → windows.Moves [] x.2 x.1.window ∧
      ∀ c rc s' log, CallStep e x.1 c rc s' log →
        (windows.Moves [] (x.2 ++ log) s'.window ↔ c.Sound x.1)) := by
  have R := h.regular
  refine ⟨R, fun c rc s' log hcall => ⟨R.lawful hcall, R.step hcall⟩, fun hQ => ?_⟩
  have hheld := h.window hQ
  exact ⟨hheld, fun c rc s' log hcall => hheld.append_iff.trans (R.window_iff hcall)⟩

/-- The answers of a system that maps the shared region. -/
def zynqReply (block : Bool) : OsReply := ⟨4096, 3, some 0x40000000, block⟩

/-- A session is opened over the shared region, with the base address `a`. -/
def zynqOpened (block : Bool) (a : UInt32) : Int × State × List OsEvent :=
  memmgrInitCheckSharedMem Env.zynq (zynqReply block) (State.loaded fun _ => 0) sharedSize a

theorem zynq_opens (block : Bool) (a : UInt32) : CallStep Env.zynq (State.loaded fun _ => 0)
    (.initCheckSharedMem (zynqReply block) sharedSize a) (zynqOpened block a).1
    (zynqOpened block a).2.1 (zynqOpened block a).2.2 :=
  .initCheckSharedMem rfl

/-- It is opened and destroyed. -/
theorem sessions_lawful_zynq : ∃ x, Calls Env.zynq (fun s c => c.Sound s)
    (State.loaded fun _ => 0, []) x ∧ x.2.length = 6 ∧ windows.Moves [] x.2 [] := by
  have hclose : CallStep Env.zynq (zynqOpened true baseAddressConst).2.1 .destroy 0
      (memmgrDestroy Env.zynq (zynqOpened true baseAddressConst).2.1).1
      (memmgrDestroy Env.zynq (zynqOpened true baseAddressConst).2.1).2 := .destroy rfl
  have hsound : Call.Sound (State.loaded fun _ => 0)
      (.initCheckSharedMem (zynqReply true) sharedSize baseAddressConst) := fun _ _ _ => rfl
  have hrun : Calls Env.zynq (fun s c => c.Sound s) (State.loaded fun _ => 0, [])
      ((memmgrDestroy Env.zynq (zynqOpened true baseAddressConst).2.1).1,
        (zynqOpened true baseAddressConst).2.2 ++
          (memmgrDestroy Env.zynq (zynqOpened true baseAddressConst).2.1).2) :=
    (Relation.ReflTransGen.single (b := (_, (zynqOpened true baseAddressConst).2.2))
      ⟨_, _, _, hsound, zynq_opens true baseAddressConst, rfl⟩).tail
        ⟨.destroy, _, _, trivial, hclose, rfl⟩
  obtain ⟨-, -, h⟩ := sessions_lawful hrun
  exact ⟨_, hrun, rfl, (h fun _ _ h => h).1⟩

/-- **A mapping is lost** when there is no memory for its area: it is still held when no session
is. -/
theorem mapping_lost : ∃ x, Calls Env.zynq (fun _ _ => True) (State.loaded fun _ => 0, []) x ∧
    x.1.session = 0 ∧ ¬windows.Moves [] x.2 x.1.window := by
  refine ⟨((zynqOpened false baseAddressConst).2.1, (zynqOpened false baseAddressConst).2.2),
    Relation.ReflTransGen.single ⟨_, _, _, trivial, zynq_opens false baseAddressConst, rfl⟩, rfl,
    fun h => ?_⟩
  exact absurd h.length_eq (by decide)

end Memmgr
end Zedboard
