import Zedboard.Aes.Stream

/-!
# Several callers at one core

`aes_encrypt` takes no lock: the calls of `pthread_mutex_lock` and `pthread_mutex_unlock` in it are
commented out.  Here its register accesses are single steps, and those of several callers are
interleaved with each other and with what the core does.  Each register remembers who wrote it.

The core takes its parameters when it has been started and all of them have been marked as valid
since; the bits of the handshake are cleared by the core.  A start while it is started has no
effect.  Reading `AP_CTRL` clears the bit that says that the core is done.

When no call begins while another one is in progress, each job is the request of one caller, and
done once before that caller returns (`jobs_atomic`).  Without that condition the core can take the
key of one caller with the addresses of another one (`jobs_mix`).
-/

set_option autoImplicit false

namespace Zedboard

variable {ι : Type}

/-! ## The core and its callers -/

/-- A call of `aes_encrypt`. -/
structure Call where
  cipher : FpgaAes
  len : Nat
  source : UInt32
  dest : UInt32
  mode : Int

namespace Call

/-- Its register accesses, up to the loop in which it waits. -/
def accesses (x : Call) : List (Access UInt32) :=
  aesAccesses x.cipher x.len x.source x.dest x.mode

/-- The job it asks for. -/
def job (x : Call) : Job := jobFor x.cipher x.len x.source x.dest x.mode

/-- The cipher has come out of `fpga_aes_new` and any calls. -/
def Reachable (x : Call) : Prop :=
  ∃ (P : Platform) (r : NewReply) (key iv : List UInt8) (base : UInt32) (ivLength : Nat)
    (mode : Int) (c₀ : FpgaAes), fpgaAesNew r key base iv ivLength mode = some c₀ ∧
      Used P (fun _ _ => True) c₀ x.cipher

end Call

/-- The data registers. -/
def Reg.all : List Reg :=
  [.sourceAddress, .destinationAddress, .numBytes, .mode] ++ (List.finRange 4).map .keyIn ++
    (List.finRange 4).map .iv

theorem Reg.mem_all (r : Reg) : r ∈ Reg.all := by
  cases r <;> simp [Reg.all]

/-- The parameters of a job, and who wrote each register. -/
structure Taken (ι : Type) where
  job : Job
  writer : Reg → Option ι

/-- All of them were written by the caller. -/
def Taken.WrittenBy (t : Taken ι) (i : ι) : Prop := ∀ r, t.writer r = some i

instance [DecidableEq ι] (t : Taken ι) (i : ι) : Decidable (t.WrittenBy i) :=
  decidable_of_iff (∀ r ∈ Reg.all, t.writer r = some i)
    ⟨fun h r => h r (Reg.mem_all r), fun h r _ => h r⟩

/-- The state of the core: its registers, with who wrote each, the bits of the handshake, the job it
is doing, and the jobs it has done. -/
structure Device (ι : Type) where
  regs : Reg → UInt32
  writer : Reg → Option ι
  vld : Port → Bool
  started : Bool
  done : Bool
  running : Option (Taken ι)
  jobs : List (Taken ι)

namespace Device

/-- An access by the caller `i`. -/
def access (d : Device ι) (i : ι) : Access UInt32 → Device ι
  | .readCtrl => { d with done := false }
  | .start => if d.started then d else { d with started := true, vld := fun _ => false }
  | .write r v =>
    { d with regs := Function.update d.regs r v, writer := Function.update d.writer r (some i) }
  | .setVld p => { d with vld := Function.update d.vld p true }

/-- The core can take its parameters. -/
def ready (d : Device ι) : Bool := d.started && d.running.isNone && Port.all.all d.vld

/-- The core takes its parameters. -/
def take (d : Device ι) : Device ι :=
  { d with running := some ⟨jobOf d.regs, d.writer⟩, vld := fun _ => false }

/-- The core has done its job. -/
def finish (d : Device ι) (t : Taken ι) : Device ι :=
  { d with running := none, started := false, done := true, jobs := d.jobs ++ [t] }

/-- The jobs that have been taken, those that have been done first. -/
def taken (d : Device ι) : List (Taken ι) := d.jobs ++ d.running.toList

variable [DecidableEq ι]

/-- The jobs of the caller `i`. -/
def jobsOf (d : Device ι) (i : ι) : List (Taken ι) := d.taken.filter fun t => t.WrittenBy i

/-- The request `x` of the caller `i` has been done, once, and nothing else for that caller. -/
def Served (d : Device ι) (x : Call) (i : ι) : Prop :=
  ∃ t ∈ d.jobs, d.jobsOf i = [t] ∧ t.job = x.job

end Device

/-- How far a call has come.  With no access left it waits for the core. -/
inductive Progress
  | idle
  | active (rest : List (Access UInt32))
  | returned
  deriving DecidableEq

/-- The call is in progress. -/
def Progress.isActive : Progress → Bool
  | .active _ => true
  | _ => false

/-- The core and its callers. -/
structure System (ι : Type) where
  device : Device ι
  progress : ι → Progress

/-- What can happen next: an access by a caller, or that the core takes its parameters, or that it
has done its job. -/
inductive Event (ι : Type)
  | caller (i : ι)
  | take
  | finish

namespace System

variable [DecidableEq ι]

/-- One step, if it is possible. -/
def step (calls : ι → Call) (s : System ι) : Event ι → Option (System ι)
  | .caller i =>
    match s.progress i with
    | .idle =>
      some { s with progress := Function.update s.progress i (.active (calls i).accesses) }
    | .active (a :: rest) =>
      some ⟨s.device.access i a, Function.update s.progress i (.active rest)⟩
    | .active [] =>
      -- the loop reads `AP_CTRL`
      some ⟨{ s.device with done := false },
        if s.device.done then Function.update s.progress i .returned else s.progress⟩
    | .returned => none
  | .take => if s.device.ready then some { s with device := s.device.take } else none
  | .finish => s.device.running.map fun t => { s with device := s.device.finish t }

/-- Nothing has happened: the core is idle, with anything in its registers. -/
structure Fresh (s : System ι) : Prop where
  progress : ∀ i, s.progress i = .idle
  started : s.device.started = false
  running : s.device.running = none
  jobs : s.device.jobs = []
  writer : ∀ r, s.device.writer r = none

/-- Any number of steps, each of which meets the condition `Q` on the state before it. -/
def Run (calls : ι → Call) (Q : System ι → Event ι → Prop) : System ι → System ι → Prop :=
  Relation.ReflTransGen fun s s' => ∃ ev, Q s ev ∧ s.step calls ev = some s'

/-- No call begins while another one is in progress.  It begins when `aes_encrypt` is entered, before
the first access to a register, and is in progress until it returns. -/
def Alone (s : System ι) : Event ι → Prop
  | .caller i => s.progress i = .idle → ∀ k, (s.progress k).isActive = false
  | _ => True

/-- Each job has all its parameters from one caller, and each caller that has returned has had its
request done once. -/
structure Atomic (calls : ι → Call) (s : System ι) : Prop where
  single : ∀ t ∈ s.device.taken, ∃ i, t.WrittenBy i
  once : ∀ i, s.progress i = .returned → s.device.Served (calls i) i

end System

/-! ## One call -/

namespace Call

/-- The accesses after the start. -/
def settings (x : Call) : List (Access UInt32) := x.accesses.drop 2

/-- They leave the job in the registers. -/
theorem settings_job {x : Call} (h : x.cipher.Updates) (regs : Reg → UInt32) :
    jobOf (x.settings.foldl Access.apply regs) = x.job :=
  jobOf_accesses h x.len x.source x.dest x.mode regs

/-- They write each register. -/
theorem exists_write_mem {x : Call} (h : x.cipher.Updates) (r : Reg) :
    ∃ v, .write r v ∈ x.settings := by
  obtain ⟨h1, h2, h3, h4, h5, h6⟩ := h
  have hall : ∀ r ∈ Reg.all, ∃ v, .write r v ∈ x.settings := by
    simp [Reg.all, List.finRange, settings, accesses, aesAccesses, h1, h2, h3, h4, h5, h6,
      xAesStart, xAesSetKeyIn, xAesSetIv, Port.all]
  exact hall r (Reg.mem_all r)

/-- The last one, and only that one, marks the mode as valid. -/
theorem exists_settings_eq (x : Call) :
    ∃ front, x.settings = front ++ [.setVld .mode] ∧ .setVld .mode ∉ front := by
  refine ⟨x.settings.dropLast, ?_, ?_⟩
  · simp [settings, accesses, aesAccesses, xAesStart, Port.all]
  · simp [settings, accesses, aesAccesses, xAesStart, xAesSetKeyIn, xAesSetIv, Port.all]

end Call

/-! ## What a call makes of the core -/

theorem Taken.WrittenBy.eq {t : Taken ι} {i k : ι} (h : t.WrittenBy i) (h' : t.WrittenBy k) :
    i = k :=
  Option.some.inj ((h .mode).symm.trans (h' .mode))

namespace Device

variable {d : Device ι} {x : Call} {i k : ι} {a : Access UInt32} {rest : List (Access UInt32)}
  {t : Taken ι}

@[simp] theorem access_jobs (d : Device ι) (i : ι) (a : Access UInt32) :
    (d.access i a).jobs = d.jobs := by
  cases a with
  | start => rw [access]; split <;> rfl
  | _ => rfl

@[simp] theorem access_running (d : Device ι) (i : ι) (a : Access UInt32) :
    (d.access i a).running = d.running := by
  cases a with
  | start => rw [access]; split <;> rfl
  | _ => rfl

@[simp] theorem access_taken (d : Device ι) (i : ι) (a : Access UInt32) :
    (d.access i a).taken = d.taken := by
  rw [taken, taken, access_jobs, access_running]

theorem finish_taken (h : d.running = some t) : (d.finish t).taken = d.taken := by
  simp [taken, finish, h]

theorem take_taken (h : d.running = none) :
    d.take.taken = d.taken ++ [⟨jobOf d.regs, d.writer⟩] := by
  simp [taken, take, h]

variable [DecidableEq ι]

/-- Where the core is while it serves the caller `i`, whose call `x` has the accesses `rest` before
it. -/
inductive Serving (d : Device ι) (x : Call) (i : ι) : List (Access UInt32) → Prop
  | begun (started : d.started = false) (running : d.running = none) (jobsOf : d.jobsOf i = []) :
      Serving d x i (.readCtrl :: .start :: x.settings)
  | cleared (started : d.started = false) (running : d.running = none) (done : d.done = false)
      (jobsOf : d.jobsOf i = []) : Serving d x i (.start :: x.settings)
  | set {pre rest : List (Access UInt32)} {regs : Reg → UInt32} (split : x.settings = pre ++ rest)
      (started : d.started = true) (running : d.running = none) (done : d.done = false)
      (jobsOf : d.jobsOf i = []) (regs_eq : d.regs = pre.foldl Access.apply regs)
      (writer : ∀ r v, .write r v ∈ pre → d.writer r = some i)
      (vld : ∀ p, d.vld p = true → .setVld p ∈ pre) : Serving d x i rest
  | busy {t : Taken ι} (running : d.running = some t) (done : d.done = false)
      (writtenBy : t.WrittenBy i) (job : t.job = x.job) (jobsOf : d.jobsOf i = [t]) :
      Serving d x i []
  | ended (started : d.started = false) (running : d.running = none) (served : d.Served x i) :
      Serving d x i []

theorem jobsOf_congr {d' : Device ι} (h : d'.taken = d.taken) (i : ι) :
    d'.jobsOf i = d.jobsOf i := by
  rw [jobsOf, jobsOf, h]

/-- The next access of the call. -/
theorem Serving.access (h : d.Serving x i (a :: rest)) : (d.access i a).Serving x i rest := by
  have hjobs := jobsOf_congr (access_taken d i a)
  cases h with
  | begun started running jobsOf =>
    exact .cleared started running rfl ((hjobs i).trans jobsOf)
  | cleared started running done jobsOf =>
    have hstart : d.access i .start = { d with started := true, vld := fun _ => false } := by
      rw [Device.access, started]
      rfl
    have hregs : (d.access i .start).regs = [].foldl Access.apply d.regs := by rw [hstart]; rfl
    refine .set (List.nil_append _).symm (by rw [hstart]) (by simpa using running)
      (by rw [hstart]; exact done) ((hjobs i).trans jobsOf) hregs (by simp) ?_
    simp [hstart]
  | @set pre _ regs split started running done jobsOf regs_eq writer vld =>
    have hsplit : x.settings = (pre ++ [a]) ++ rest := by rw [split]; simp
    have hfold : (pre ++ [a]).foldl Access.apply regs = a.apply d.regs := by
      rw [List.foldl_append, regs_eq]
      rfl
    cases a with
    | readCtrl =>
      exact .set hsplit started running rfl ((hjobs i).trans jobsOf) hfold.symm
        (fun r v hv => writer r v (by simpa using hv)) fun p hp => by simp [vld p hp]
    | start =>
      have hstart : d.access i .start = d := by rw [Device.access, started]; rfl
      rw [hstart]
      exact .set hsplit started running done jobsOf hfold.symm
        (fun r v hv => writer r v (by simpa using hv)) fun p hp => by simp [vld p hp]
    | write r v =>
      refine .set hsplit started running done ((hjobs i).trans jobsOf) hfold.symm
        (fun r' v' hv => ?_) fun p hp => by simp [vld p hp]
      show Function.update d.writer r (some i) r' = some i
      by_cases hr : r' = r
      · rw [hr, Function.update_self]
      · rw [Function.update_of_ne hr]
        exact writer r' v' (by simpa [hr] using hv)
    | setVld p =>
      refine .set hsplit started running done ((hjobs i).trans jobsOf) hfold.symm
        (fun r v hv => writer r v (by simpa using hv)) fun p' hp => ?_
      have hp' : Function.update d.vld p true p' = true := hp
      by_cases heq : p' = p
      · simp [heq]
      · rw [Function.update_of_ne heq] at hp'
        simp [vld p' hp']

/-- When the core takes its parameters, the call has made all its accesses, and they are those of
the call. -/
theorem Serving.take (hx : x.cipher.Updates) (h : d.Serving x i rest) (hready : d.ready = true) :
    d.running = none ∧ (⟨jobOf d.regs, d.writer⟩ : Taken ι).WrittenBy i ∧
      d.take.Serving x i rest := by
  simp only [ready, Bool.and_eq_true, List.all_eq_true, Option.isNone_iff_eq_none] at hready
  obtain ⟨⟨hstarted, hrunning⟩, hvld⟩ := hready
  cases h with
  | begun started => rw [started] at hstarted; exact absurd hstarted (by simp)
  | cleared started => rw [started] at hstarted; exact absurd hstarted (by simp)
  | busy running => rw [running] at hrunning; exact absurd hrunning (by simp)
  | ended started => rw [started] at hstarted; exact absurd hstarted (by simp)
  | @set pre _ regs split started running done jobsOf regs_eq writer vld =>
    obtain rfl : rest = [] := by
      rcases List.eq_nil_or_concat rest with h | ⟨rest', a, rfl⟩
      · exact h
      · obtain ⟨front, hfront, hmem⟩ := x.exists_settings_eq
        rw [hfront, List.concat_eq_append, ← List.append_assoc] at split
        have hpre := (List.append_inj' split rfl).1
        refine absurd (vld .mode (hvld .mode (by decide))) fun h => hmem ?_
        rw [hpre]
        exact List.mem_append_left _ h
    rw [List.append_nil] at split
    have hby : (⟨jobOf d.regs, d.writer⟩ : Taken ι).WrittenBy i := fun r => by
      obtain ⟨v, hv⟩ := Call.exists_write_mem hx r
      exact writer r v (split ▸ hv)
    have hjob : jobOf d.regs = x.job := by
      rw [regs_eq, ← split]
      exact Call.settings_job hx regs
    refine ⟨running, hby, .busy rfl done hby hjob ?_⟩
    rw [Device.jobsOf, take_taken running, List.filter_append, List.filter_singleton]
    rw [Device.jobsOf] at jobsOf
    simp [jobsOf, hby]

/-- The core finishes. -/
theorem Serving.finish (h : d.Serving x i rest) (ht : d.running = some t) :
    (d.finish t).Serving x i rest := by
  cases h with
  | begun started running => rw [running] at ht; exact absurd ht (by simp)
  | cleared started running => rw [running] at ht; exact absurd ht (by simp)
  | set split started running => rw [running] at ht; exact absurd ht (by simp)
  | ended started running => rw [running] at ht; exact absurd ht (by simp)
  | @busy t' running done writtenBy job jobsOf =>
    obtain rfl : t' = t := Option.some.inj (running.symm.trans ht)
    exact .ended rfl rfl ⟨t', by simp [Device.finish],
      (jobsOf_congr (finish_taken ht) i).trans jobsOf,
      job⟩

/-- When the call sees that the core is done, its request has been served. -/
theorem Serving.served (h : d.Serving x i []) (hdone : d.done = true) :
    d.started = false ∧ d.running = none ∧ d.Served x i := by
  cases h with
  | set split started running done => rw [hdone] at done; exact absurd done (by simp)
  | busy running done => rw [hdone] at done; exact absurd done (by simp)
  | ended started running served => exact ⟨started, running, served⟩

theorem Served.mono {d' : Device ι} (h : d.Served x i) (hjobs : d'.jobsOf i = d.jobsOf i)
    (hsub : ∀ t ∈ d.jobs, t ∈ d'.jobs) : d'.Served x i := by
  obtain ⟨t, ht, hof, hjob⟩ := h
  exact ⟨t, hsub t ht, hjobs.trans hof, hjob⟩

end Device

/-! ## Calls that do not overlap -/

namespace System

variable [DecidableEq ι] {calls : ι → Call} {s s' s₀ : System ι} {ev : Event ι} {i k : ι}

/-- What a step can be. -/
theorem step_cases (h : s.step calls ev = some s') :
    (∃ i, ev = .caller i ∧ s.progress i = .idle ∧
      s' = { s with progress := Function.update s.progress i (.active (calls i).accesses) }) ∨
    (∃ i a rest, ev = .caller i ∧ s.progress i = .active (a :: rest) ∧
      s' = ⟨s.device.access i a, Function.update s.progress i (.active rest)⟩) ∨
    (∃ i, ev = .caller i ∧ s.progress i = .active [] ∧
      s' = ⟨{ s.device with done := false },
        if s.device.done then Function.update s.progress i .returned else s.progress⟩) ∨
    (ev = .take ∧ s.device.ready = true ∧ s' = { s with device := s.device.take }) ∨
    (∃ t, ev = .finish ∧ s.device.running = some t ∧
      s' = { s with device := s.device.finish t }) := by
  cases ev with
  | caller i =>
    rw [step] at h
    split at h
    · rename_i hp
      exact Or.inl ⟨i, rfl, hp, (Option.some.inj h).symm⟩
    · rename_i a rest hp
      exact Or.inr (Or.inl ⟨i, a, rest, rfl, hp, (Option.some.inj h).symm⟩)
    · rename_i hp
      exact Or.inr (Or.inr (Or.inl ⟨i, rfl, hp, (Option.some.inj h).symm⟩))
    · exact absurd h (by simp)
  | take =>
    rw [step] at h
    split at h
    · rename_i hready
      exact Or.inr (Or.inr (Or.inr (Or.inl ⟨rfl, hready, (Option.some.inj h).symm⟩)))
    · exact absurd h (by simp)
  | finish =>
    rw [step, Option.map_eq_some_iff] at h
    obtain ⟨t, ht, rfl⟩ := h
    exact Or.inr (Or.inr (Or.inr (Or.inr ⟨t, rfl, ht, rfl⟩)))

/-- The caller is not in a call: it has not begun, or its request has been served. -/
def Rests (calls : ι → Call) (s : System ι) (k : ι) : Prop :=
  (s.progress k = .idle ∧ s.device.jobsOf k = []) ∨
    (s.progress k = .returned ∧ s.device.Served (calls k) k)

theorem Rests.not_active (h : Rests calls s k) (rest : List (Access UInt32)) :
    s.progress k ≠ .active rest := by
  rcases h with ⟨h, -⟩ | ⟨h, -⟩
  · rw [h]; simp
  · rw [h]; simp

theorem Rests.mono (h : Rests calls s k) (hprogress : s'.progress k = s.progress k)
    (hjobs : s'.device.jobsOf k = s.device.jobsOf k)
    (hsub : ∀ t ∈ s.device.jobs, t ∈ s'.device.jobs) : Rests calls s' k := by
  rcases h with ⟨h, hnone⟩ | ⟨h, hserved⟩
  · exact Or.inl ⟨hprogress.trans h, hjobs.trans hnone⟩
  · exact Or.inr ⟨hprogress.trans h, hserved.mono hjobs hsub⟩

/-- The core is free, or it serves the one call that is in progress. -/
inductive Orderly (calls : ι → Call) (s : System ι) : Prop
  | free (single : ∀ t ∈ s.device.taken, ∃ i, t.WrittenBy i) (started : s.device.started = false)
      (running : s.device.running = none) (rests : ∀ k, Rests calls s k)
  | serving {i : ι} {rest : List (Access UInt32)}
      (single : ∀ t ∈ s.device.taken, ∃ i, t.WrittenBy i) (active : s.progress i = .active rest)
      (serving : s.device.Serving (calls i) i rest) (rests : ∀ k, k ≠ i → Rests calls s k)

theorem Fresh.orderly (h : s.Fresh) : Orderly calls s := by
  have htaken : s.device.taken = [] := by simp [Device.taken, h.jobs, h.running]
  refine .free (by simp [htaken]) h.started h.running fun k => Or.inl ⟨h.progress k, ?_⟩
  simp [Device.jobsOf, htaken]

/-- The call in progress is the one that makes the step. -/
theorem Orderly.exists_serving (h : Orderly calls s) {rest : List (Access UInt32)}
    (hi : s.progress i = .active rest) :
    (∀ t ∈ s.device.taken, ∃ i, t.WrittenBy i) ∧ s.device.Serving (calls i) i rest ∧
      ∀ k, k ≠ i → Rests calls s k := by
  cases h with
  | free single started running rests => exact absurd hi ((rests i).not_active rest)
  | @serving i' rest' single active serving rests =>
    obtain rfl : i = i' := by
      by_contra hne
      exact (rests i hne).not_active rest hi
    rw [hi] at active
    cases active
    exact ⟨single, serving, rests⟩

/-- **One step** keeps the order when no call begins while another one is in progress. -/
theorem Orderly.step (hcalls : ∀ i, (calls i).cipher.Updates) (h : Orderly calls s)
    (halone : s.Alone ev) (hstep : s.step calls ev = some s') : Orderly calls s' := by
  rcases step_cases hstep with ⟨i, rfl, hi, rfl⟩ | ⟨i, a, rest, rfl, hi, rfl⟩ | ⟨i, rfl, hi, rfl⟩ |
    ⟨rfl, hready, rfl⟩ | ⟨t, rfl, ht, rfl⟩
  · -- a call begins
    cases h with
    | free single started running rests =>
      have hnone : s.device.jobsOf i = [] := by
        rcases rests i with ⟨-, h⟩ | ⟨h, -⟩
        · exact h
        · rw [hi] at h; exact absurd h (by simp)
      refine .serving (i := i) single (Function.update_self ..) (.begun started running hnone)
        fun k hk => (rests k).mono (Function.update_of_ne hk ..) rfl fun t ht => ht
    | @serving i' rest single active =>
      have h := halone hi i'
      rw [active] at h
      exact absurd h (by simp [Progress.isActive])
  · -- an access
    obtain ⟨single, serving, rests⟩ := h.exists_serving hi
    refine .serving (i := i) (by simpa using single) (Function.update_self ..) serving.access
      fun k hk => (rests k hk).mono (Function.update_of_ne hk ..)
        (Device.jobsOf_congr (Device.access_taken ..) k) (by simp)
  · -- the call looks whether the core is done
    obtain ⟨single, serving, rests⟩ := h.exists_serving hi
    cases hdone : s.device.done with
    | true =>
      obtain ⟨started, running, served⟩ := serving.served hdone
      refine .free single started running fun k => ?_
      by_cases hk : k = i
      · subst hk
        exact Or.inr ⟨Function.update_self .., served.mono rfl fun t ht => ht⟩
      · exact (rests k hk).mono (Function.update_of_ne hk ..) rfl fun t ht => ht
    | false =>
      have hsame : { s.device with done := false } = s.device := by rw [← hdone]
      rw [hsame]
      exact .serving (i := i) single hi serving rests
  · -- the core takes its parameters
    cases h with
    | free single started =>
      simp [Device.ready, started] at hready
    | @serving i rest single active serving rests =>
      obtain ⟨running, hby, serving'⟩ := serving.take (hcalls i) hready
      have htaken := Device.take_taken running
      refine .serving (i := i) ?_ active serving' fun k hk => (rests k hk).mono rfl ?_
        fun t ht => ht
      · intro t ht
        rw [htaken, List.mem_append, List.mem_singleton] at ht
        rcases ht with ht | rfl
        · exact single t ht
        · exact ⟨i, hby⟩
      · have hnot : ¬(⟨jobOf s.device.regs, s.device.writer⟩ : Taken ι).WrittenBy k :=
          fun h => hk (h.eq hby)
        rw [Device.jobsOf, htaken, List.filter_append, List.filter_singleton]
        simp [hnot, Device.jobsOf]
  · -- the core has done its job
    cases h with
    | free single started running => rw [running] at ht; exact absurd ht (by simp)
    | @serving i rest single active serving rests =>
      have htaken := Device.finish_taken ht
      exact .serving (i := i) (by rwa [htaken]) active (serving.finish ht) fun k hk =>
        (rests k hk).mono rfl (Device.jobsOf_congr htaken k) fun t' ht' => by
          simp [Device.finish, ht']

theorem Orderly.run (hcalls : ∀ i, (calls i).cipher.Updates) (h : Orderly calls s)
    (hrun : Run calls Alone s s') : Orderly calls s' := by
  induction hrun with
  | refl => exact h
  | tail _ hstep ih =>
    obtain ⟨ev, halone, hstep⟩ := hstep
    exact ih.step hcalls halone hstep

theorem Orderly.atomic (h : Orderly calls s) : s.Atomic calls := by
  have hrests : ∀ {k}, Rests calls s k → s.progress k = .returned →
      s.device.Served (calls k) k := by
    rintro k (⟨h, -⟩ | ⟨-, h⟩) hk
    · rw [h] at hk; exact absurd hk (by simp)
    · exact h
  cases h with
  | free single started running rests => exact ⟨single, fun i hi => hrests (rests i) hi⟩
  | @serving i rest single active serving rests =>
    refine ⟨single, fun k hk => hrests (rests k ?_) hk⟩
    rintro rfl
    rw [active] at hk
    exact absurd hk (by simp)

end System

/-- Every cipher has all its parameters written. -/
theorem Call.Reachable.updates {x : Call} (h : x.Reachable) : x.cipher.Updates := by
  obtain ⟨P, r, key, iv, base, ivLength, mode, c₀, hnew, hused⟩ := h
  obtain ⟨hloc, -, -, hup⟩ := new_eq hnew
  exact (hused.lastLocation_lt (by omega)).2.updates hup

/-- **Jobs are atomic** in every run in which `aes_encrypt` is not entered while another call of it is
in progress: each job the core takes has all its parameters from one caller, and each caller that has returned has had
its request done, once. -/
theorem jobs_atomic [DecidableEq ι] {calls : ι → Call} {s₀ s : System ι}
    (hcalls : ∀ i, (calls i).Reachable) (h₀ : s₀.Fresh)
    (hrun : System.Run calls System.Alone s₀ s) : s.Atomic calls :=
  ((System.Fresh.orderly h₀).run (fun i => (hcalls i).updates) hrun).atomic

/-! ## Two calls -/

namespace System

variable [DecidableEq ι]

/-- The events one after the other, if they are possible and meet the condition. -/
def exec (calls : ι → Call) (Q : System ι → Event ι → Prop) [∀ s ev, Decidable (Q s ev)] :
    List (Event ι) → System ι → Option (System ι)
  | [], s => some s
  | ev :: evs, s => if Q s ev then (s.step calls ev).bind (exec calls Q evs) else none

theorem run_of_exec {calls : ι → Call} {Q : System ι → Event ι → Prop}
    [∀ s ev, Decidable (Q s ev)] {evs : List (Event ι)} {s s' : System ι}
    (h : exec calls Q evs s = some s') : Run calls Q s s' := by
  induction evs generalizing s with
  | nil => obtain rfl := Option.some.inj h; exact .refl
  | cons ev evs ih =>
    rw [exec] at h
    split at h
    · rename_i hq
      obtain ⟨s₁, hstep, hrest⟩ := Option.bind_eq_some_iff.1 h
      exact .head ⟨ev, hq, hstep⟩ (ih hrest)
    · exact absurd h (by simp)

instance (s : System Bool) : ∀ ev, Decidable (s.Alone ev)
  | .caller _ => inferInstanceAs (Decidable (_ → ∀ _, _))
  | .take => .isTrue trivial
  | .finish => .isTrue trivial

/-- A core that has just been switched on, and two callers. -/
def off : System Bool where
  device := ⟨fun _ => 0, fun _ => none, fun _ => false, false, false, none, []⟩
  progress := fun _ => .idle

theorem off_fresh : off.Fresh :=
  ⟨fun _ => rfl, rfl, rfl, rfl, fun _ => rfl⟩

end System

/-- Two calls with different keys and buffers. -/
def benchCalls : Bool → Call
  | false => ⟨benchCipher, 64, 0x1f410014, 0x1f51002c, 2⟩
  | true => ⟨{ benchCipher with keyIn := Words.pack (List.replicate 16 1) }, 16, 0x1f610014,
      0x1f71002c, 0⟩

theorem benchCalls_reachable (i : Bool) : (benchCalls i).Reachable := by
  have hnew : ∃ key, fpgaAesNewShort16 ⟨fun _ => 0, true, true, true, true, true, true⟩ key
      (List.replicate 15 0 ++ [255]) = some (benchCalls i).cipher := by
    cases i with
    | false => exact ⟨List.replicate 16 0, rfl⟩
    | true => exact ⟨List.replicate 16 1, rfl⟩
  obtain ⟨key, hnew⟩ := hnew
  exact ⟨Platform.zynq benchAes, _, key, _, _, _, _, _, hnew, .refl⟩

/-- The events of a call that is alone: it begins, makes its twenty accesses, looks twice whether
the core is done, and returns. -/
def aloneEvents (i : Bool) : List (Event Bool) :=
  List.replicate 22 (.caller i) ++ [.take, .caller i, .finish, .caller i]

/-- Both callers, one after the other. -/
theorem jobs_atomic_both : ∃ s, System.Run benchCalls System.Alone System.off s ∧
    (∀ i, s.progress i = .returned) ∧ s.Atomic benchCalls := by
  have h : (System.exec benchCalls System.Alone (aloneEvents false ++ aloneEvents true)
      System.off).map (fun s => decide (∀ i, s.progress i = .returned)) = some true := by
    decide +kernel
  obtain ⟨s, hs, hreturned⟩ := Option.map_eq_some_iff.1 h
  have hrun := System.run_of_exec hs
  exact ⟨s, hrun, of_decide_eq_true hreturned,
    jobs_atomic benchCalls_reachable System.off_fresh hrun⟩

/-- Both callers start the core, the first one writes its parameters, the second one its key, and
then the first one marks its parameters as valid. -/
def mixedEvents : List (Event Bool) :=
  List.replicate 3 (.caller false) ++ List.replicate 3 (.caller true) ++
    List.replicate 12 (.caller false) ++ List.replicate 4 (.caller true) ++
    List.replicate 6 (.caller false) ++ [.take, .finish]

/-- **A mixed job**: the core enciphers the message of the one caller with the key of the other. -/
theorem jobs_mix : ∃ s, System.Run benchCalls (fun _ _ => True) System.off s ∧
    s.device.jobs.map Taken.job =
      [{ (benchCalls false).job with key := (benchCalls true).job.key }] ∧
    ¬s.Atomic benchCalls := by
  have h : (System.exec benchCalls (fun _ _ => True) mixedEvents System.off).map (fun s =>
      (s.device.jobs.map Taken.job, s.device.taken.all fun t =>
        decide (∀ i, ¬t.WrittenBy i), s.device.taken.length)) =
      some ([{ (benchCalls false).job with key := (benchCalls true).job.key }], true, 1) := by
    decide +kernel
  obtain ⟨s, hs, hrest⟩ := Option.map_eq_some_iff.1 h
  simp only [Prod.mk.injEq, List.all_eq_true, decide_eq_true_eq] at hrest
  obtain ⟨hjobs, hnone, hlength⟩ := hrest
  refine ⟨s, System.run_of_exec hs, hjobs, fun hatomic => ?_⟩
  obtain ⟨t, ht⟩ := List.exists_mem_of_length_pos (l := s.device.taken) (by omega)
  obtain ⟨i, hi⟩ := hatomic.single t ht
  exact hnone t ht i hi

end Zedboard
