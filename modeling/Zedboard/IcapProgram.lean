import Zedboard.Aes.Counter
import Zedboard.Lib.Fifo
import Zedboard.Mapping.Registers

/-!
# The bitstream loader

`icap_program.cpp`: the words of a file go to the configuration port through a FIFO.  The program
writes a word, looks at the vacancy register, and when that is zero starts a transfer and waits
until the control register has been cleared; at the end it starts a last one.

The configuration port is hardware, and this is what the program relies on (`icap`): a word that is
written is appended if there is room and lost otherwise, the vacancy register reads the room that is
left, and the control bit drains the FIFO and then reads zero.  How long that takes, and how many
words leave the FIFO before each look at the register, is up to the hardware (`schedule`).

`icap_lossless` says that no word is ever written to a full FIFO, and that a program that finishes
has delivered the file.  The index of the loop is an `int` and the bound a `long`, so a file of
`2 ^ 31` words is more than the program can finish; `icap_delivers` says that it finishes with every
shorter one.
-/

set_option autoImplicit false

namespace Zedboard

/-! ## The device -/

/-- `ICAP`. -/
def icapBase : UInt64 := 0xB0000000

/-- `ICAP + WRITE_FIFO_OFFSET`. -/
def writeFifoReg : UInt64 := icapBase + 0x100

/-- `ICAP + CONTROL_REG_OFFSET`. -/
def controlReg : UInt64 := icapBase + 0x10C

/-- `ICAP + STATUS_REG_OFFSET`. -/
def statusReg : UInt64 := icapBase + 0x110

/-- `ICAP + VACANCY_REG_OFFSET`. -/
def vacancyReg : UInt64 := icapBase + 0x114

/-- `DEVCFG_CTRL`. -/
def devcfgCtrl : UInt64 := 0xF8007000

/-- The configuration port.  While a transfer is going on, `transfer` has the number of words that
leave the FIFO before each look at the control register that still finds the bit set. -/
structure Icap where
  fifo : Fifo UInt32
  transfer : Option (List Nat)
  transfers : Nat
  status : UInt32
  devcfg : UInt32

/-- The registers of a port with a FIFO for `c` words. -/
def icap (c : Nat) (schedule : Nat → List Nat) : RegisterFile Icap where
  load a s :=
    if a = controlReg.toNat then
      match s.transfer with
      | none => (0, s)
      | some [] => (0, { s with fifo := s.fifo.drain, transfer := none })
      | some (n :: rest) => (1, { s with fifo := s.fifo.pop n, transfer := some rest })
    else if a = vacancyReg.toNat then (UInt32.ofNat (c - s.fifo.queue.length), s)
    else if a = statusReg.toNat then (s.status, s)
    else if a = devcfgCtrl.toNat then (s.devcfg, s)
    else (0, s)
  store a v s :=
    if a = writeFifoReg.toNat then { s with fifo := s.fifo.push c v }
    else if a = controlReg.toNat then
      if v = 1 then
        { s with transfer := some (schedule s.transfers), transfers := s.transfers + 1 }
      else s
    else if a = devcfgCtrl.toNat then { s with devcfg := v }
    else s

/-! ## The program -/

/-- A program on the port. -/
abbrev IcapProg := RegProg Icap

/-- How the calls come out that open and map the file: the descriptor, the size that `fstat` returns
(less than zero when it fails), and whether `mmap` succeeds. -/
structure FileReply where
  fp : Int
  fsize : Int
  mapped : Bool
  deriving DecidableEq, Repr

/-- What `file_buffer[i]` is. -/
def fileWord (file : List UInt8) (i : Nat) : UInt32 := ofLe ((file.drop (4 * i)).take 4)

section

variable (D : RegisterFile Icap) (os : Nat → OsReply) (fuel : Nat)

/-- `do getValueAtAddress(..., &control) while(control != 0)`. -/
def waitLoop : Nat → UInt32 → IcapProg UInt32
  | 0, _ => throw .hang
  | n + 1, control => do
    let control ← getReg D os controlReg control
    if control ≠ 0 then waitLoop n control else return control

/-- Start a transfer and wait. -/
def transfer (control : UInt32) : IcapProg UInt32 := do
  setReg D os 0x1 controlReg
  waitLoop D os fuel control

/-- The loop over the words, for `n` more of them from the index `i` on. -/
def writeLoop (word : Nat → UInt32) : Nat → Nat → UInt32 → UInt32 → IcapProg UInt32
  | 0, _, control, _ => return control
  | n + 1, i, control, vacancy => do
    setReg D os (word i) writeFifoReg
    let vacancy ← getReg D os vacancyReg vacancy
    let control ← if vacancy = 0 then transfer D os fuel control else pure control
    if i + 1 = 2 ^ 31 then throw .overflow
    writeLoop word n (i + 1) control vacancy

/-- `main`, once it has the name of the file. -/
def icapProgram (r : FileReply) (word : Nat → UInt32) : IcapProg Int := do
  if r.fp < 0 then return -1
  if r.fsize < 0 then return -1
  if !r.mapped then return -1
  let control ← getReg D os controlReg 1
  let status ← getReg D os statusReg 1
  let devcfg ← getReg D os devcfgCtrl 0
  setReg D os (devcfg &&& 0xF3FFFFFF) devcfgCtrl
  let _ ← getReg D os devcfgCtrl (devcfg &&& 0xF3FFFFFF)
  let control ← writeLoop D os fuel word (r.fsize.toNat / 4) 0 control 0
  let _ ← transfer D os fuel control
  let _ ← getReg D os statusReg status
  return 0

end

/-! ## What a transfer does -/

/-- The accessors succeed, and the control register is cleared in time. -/
structure Responsive (os : Nat → OsReply) (schedule : Nat → List Nat) (fuel : Nat) : Prop where
  grants : ∀ k a, a ≠ 0 → (os k).Grants a
  prompt : ∀ k, (schedule k).length < fuel

variable {c fuel : Nat} {schedule : Nat → List Nat} {os : Nat → OsReply} {s : RegState Icap}

/-- Nothing is going on, and nothing has been lost of `xs`. -/
structure PortReady (c : Nat) (xs : List UInt32) (s : RegState Icap) : Prop where
  idle : s.device.transfer = none
  carries : s.device.fifo.Carries c xs

/-- **Waiting** ends, whatever the hardware does, with an empty FIFO. -/
theorem waitLoop_eq (h : ∀ k a, a ≠ 0 → (os k).Grants a) :
    ∀ {n : Nat} {rest : List Nat} {s : RegState Icap} (control : UInt32), rest.length < n →
      s.device.transfer = some rest →
      waitLoop (icap c schedule) os n control s = .ok 0
        ⟨{ s.device with fifo := s.device.fifo.drain, transfer := none },
          s.calls + rest.length + 1⟩
  | 0, _, _, _, hn, _ => absurd hn (Nat.not_lt_zero _)
  | n + 1, [], s, control, _, htransfer => by
    have hload : (icap c schedule).load controlReg.toNat s.device =
        (0, { s.device with fifo := s.device.fifo.drain, transfer := none }) := by
      simp [icap, htransfer]
    rw [waitLoop, bind_of_ok (getReg_granted (h s.calls controlReg (by decide)) control), hload,
      if_neg (fun hx => hx rfl)]
    rfl
  | n + 1, k :: rest, s, control, hn, htransfer => by
    have hload : (icap c schedule).load controlReg.toNat s.device =
        (1, { s.device with fifo := s.device.fifo.pop k, transfer := some rest }) := by
      simp [icap, htransfer]
    rw [waitLoop, bind_of_ok (getReg_granted (h s.calls controlReg (by decide)) control), hload,
      if_pos (show (1 : UInt32) ≠ 0 by decide),
      waitLoop_eq h (n := n) 1 (by simpa using hn : rest.length < n) rfl]
    simp only [Fifo.drain_pop, List.length_cons]
    congr 2
    omega

/-- **A transfer** delivers what has been written. -/
theorem transfer_spec (h : Responsive os schedule fuel) {xs : List UInt32} (hs : PortReady c xs s)
    (control : UInt32) : Returns (transfer (icap c schedule) os fuel control) s
      fun _ s' => PortReady c xs s' ∧ s'.device.fifo.queue = [] ∧
        s'.device.fifo.delivered = xs := by
  have hstore : (icap c schedule).store controlReg.toNat 1 s.device =
      { s.device with
        transfer := some (schedule s.device.transfers), transfers := s.device.transfers + 1 } := rfl
  obtain ⟨hcarries, hempty, hdelivered⟩ := hs.carries.drain
  refine ⟨0, ⟨⟨s.device.fifo.drain, none, s.device.transfers + 1, s.device.status,
    s.device.devcfg⟩, s.calls + 1 + (schedule s.device.transfers).length + 1⟩, ?_, ⟨rfl, hcarries⟩,
    hempty, hdelivered⟩
  rw [transfer, bind_of_ok (setReg_granted (h.grants s.calls controlReg (by decide)) 1), hstore,
    waitLoop_eq h.grants control (h.prompt _) rfl]

/-! ## The words -/

/-- **One word** goes into a FIFO with room, and leaves room. -/
theorem writeLoop_succ (hc : 0 < c) (h : Responsive os schedule fuel) {xs : List UInt32}
    (hs : PortReady c xs s) (hroom : s.device.fifo.queue.length < c)
    (word : Nat → UInt32) (n i : Nat)
    (control vacancy : UInt32) :
    ∃ control' vacancy' s', PortReady c (xs ++ [word i]) s' ∧ s'.device.fifo.queue.length < c ∧
      writeLoop (icap c schedule) os fuel word (n + 1) i control vacancy s =
        (do
          if i + 1 = 2 ^ 31 then throw Fault.overflow
          writeLoop (icap c schedule) os fuel word n (i + 1) control' vacancy') s' := by
  have hcarries := hs.carries.push hroom (word i)
  have hstore : (icap c schedule).store writeFifoReg.toNat (word i) s.device =
      { s.device with fifo := s.device.fifo.push c (word i) } := rfl
  have hvacancy : ∀ d : Icap, (icap c schedule).load vacancyReg.toNat d =
      (UInt32.ofNat (c - d.fifo.queue.length), d) := fun d => rfl
  rw [writeLoop, bind_of_ok (setReg_granted (h.grants s.calls writeFifoReg (by decide)) _), hstore,
    bind_of_ok (getReg_granted (h.grants _ vacancyReg (by decide)) vacancy), hvacancy]
  dsimp only
  by_cases hfull : UInt32.ofNat (c - (s.device.fifo.push c (word i)).queue.length) = 0
  · -- the FIFO is full, and is emptied
    rw [if_pos hfull]
    obtain ⟨control', s', hrun, hready, hempty, -⟩ := transfer_spec (c := c)
      (s := ⟨{ s.device with fifo := s.device.fifo.push c (word i) }, s.calls + 1 + 1⟩) h
      ⟨hs.idle, hcarries⟩ control
    exact ⟨control', _, s', hready, by rw [hempty]; exact hc, bind_of_ok hrun⟩
  · rw [if_neg hfull]
    refine ⟨control, _, ⟨{ s.device with fifo := s.device.fifo.push c (word i) }, _⟩,
      ⟨hs.idle, hcarries⟩, hcarries.room_iff.2 fun hzero => ?_, rfl⟩
    rw [hzero] at hfull
    exact hfull rfl

/-- **All the words**, as long as the index does not overflow. -/
theorem writeLoop_returns (hc : 0 < c) (h : Responsive os schedule fuel) (word : Nat → UInt32) :
    ∀ (n : Nat) {i : Nat} {xs : List UInt32} {s : RegState Icap} (control vacancy : UInt32),
      i + n < 2 ^ 31 → PortReady c xs s → s.device.fifo.queue.length < c →
      Returns (writeLoop (icap c schedule) os fuel word n i control vacancy) s
        fun _ s' => PortReady c (xs ++ (List.range' i n).map word) s'
  | 0, _, xs, s, control, _, _, hs, _ => ⟨control, s, rfl, by simpa using hs⟩
  | n + 1, i, xs, s, control, vacancy, hi, hs, hroom => by
    obtain ⟨control', vacancy', s', hs', hroom', heq⟩ :=
      writeLoop_succ hc h hs hroom word n i control vacancy
    obtain ⟨control'', s'', hrun, hready⟩ := writeLoop_returns hc h word n (i := i + 1) control'
      vacancy' (by omega) hs' hroom'
    refine ⟨control'', s'', ?_, ?_⟩
    · rw [heq, if_neg (by omega)]
      exact hrun
    · rw [List.append_assoc] at hready
      exact hready

/-- When it would, it does. -/
theorem writeLoop_overflows (hc : 0 < c) (h : Responsive os schedule fuel) (word : Nat → UInt32) :
    ∀ (n : Nat) {i : Nat} {xs : List UInt32} {s : RegState Icap} (control vacancy : UInt32),
      2 ^ 31 ≤ i + n → i < 2 ^ 31 → PortReady c xs s → s.device.fifo.queue.length < c →
      Stops (writeLoop (icap c schedule) os fuel word n i control vacancy) s .overflow
        fun s' => s'.device.fifo.lost = []
  | 0, _, _, _, _, _, hn, hi, _, _ => absurd hn (by omega)
  | n + 1, i, xs, s, control, vacancy, hn, hi, hs, hroom => by
    obtain ⟨control', vacancy', s', hs', hroom', heq⟩ :=
      writeLoop_succ hc h hs hroom word n i control vacancy
    by_cases hlast : i + 1 = 2 ^ 31
    · refine ⟨s', ?_, hs'.carries.lost⟩
      rw [heq, if_pos hlast]
      rfl
    · obtain ⟨s'', hrun, hlost⟩ := writeLoop_overflows hc h word n (i := i + 1) control' vacancy'
        (by omega) (by omega) hs' hroom'
      refine ⟨s'', ?_, hlost⟩
      rw [heq, if_neg hlast]
      exact hrun

/-! ## The file -/

/-- What the program does before the loop leaves the FIFO alone. -/
theorem icapProgram_eq {r : FileReply} (hfp : 0 ≤ r.fp) (hsize : 0 ≤ r.fsize)
    (hmap : r.mapped = true) (h : Responsive os schedule fuel) (hidle : s.device.transfer = none)
    (word : Nat → UInt32) :
    ∃ s', s'.device.fifo = s.device.fifo ∧ s'.device.transfer = none ∧
      icapProgram (icap c schedule) os fuel r word s =
        (do
          let control ← writeLoop (icap c schedule) os fuel word (r.fsize.toNat / 4) 0 0 0
          let _ ← transfer (icap c schedule) os fuel control
          let _ ← getReg (icap c schedule) os statusReg s.device.status
          return 0) s' := by
  have hcontrol : (icap c schedule).load controlReg.toNat s.device = (0, s.device) := by
    simp [icap, hidle]
  have hstatus : ∀ d : Icap, (icap c schedule).load statusReg.toNat d = (d.status, d) :=
    fun d => rfl
  have hdevcfg : ∀ d : Icap, (icap c schedule).load devcfgCtrl.toNat d = (d.devcfg, d) :=
    fun d => rfl
  have hstore : ∀ (v : UInt32) (d : Icap), (icap c schedule).store devcfgCtrl.toNat v d =
      { d with devcfg := v } := fun v d => rfl
  refine ⟨⟨{ s.device with devcfg := s.device.devcfg &&& 0xF3FFFFFF }, s.calls + 1 + 1 + 1 + 1 + 1⟩,
    rfl, hidle, ?_⟩
  rw [icapProgram, if_neg (by omega), if_neg (by omega), if_neg (by simp [hmap]),
    bind_of_ok (getReg_granted (h.grants _ controlReg (by decide)) 1), hcontrol,
    bind_of_ok (getReg_granted (h.grants _ statusReg (by decide)) 1), hstatus,
    bind_of_ok (getReg_granted (h.grants _ devcfgCtrl (by decide)) 0), hdevcfg,
    bind_of_ok (setReg_granted (h.grants _ devcfgCtrl (by decide)) _), hstore,
    bind_of_ok (getReg_granted (h.grants _ devcfgCtrl (by decide)) _), hdevcfg]

/-- The program finishes, has never written to a full FIFO, and has delivered the words of the file
in order, each once. -/
def Delivers (c : Nat) (schedule : Nat → List Nat) (os : Nat → OsReply) (fuel : Nat) (r : FileReply)
    (file : List UInt8) (s : RegState Icap) : Prop :=
  ∃ rc s', icapProgram (icap c schedule) os fuel r (fileWord file) s = .ok rc s' ∧
    s'.device.fifo.lost = [] ∧
    s'.device.fifo.delivered = (List.range (file.length / 4)).map (fileWord file) ∧
    s'.device.fifo.queue = []

/-- The FIFO is empty at the beginning, the file can be opened, and it can be mapped unless it is
empty. -/
structure FileReady (r : FileReply) (file : List UInt8) (s : RegState Icap) : Prop where
  fp : 0 ≤ r.fp
  fsize : r.fsize = file.length
  mapped : r.mapped = decide (0 < file.length)
  idle : s.device.transfer = none
  empty : s.device.fifo = .empty

/-- The program comes to its loop. -/
theorem FileReady.loop {r : FileReply} {file : List UInt8} (hr : FileReady r file s)
    (h : Responsive os schedule fuel) (hc : 0 < c) (hfile : 0 < file.length) :
    ∃ s₁, PortReady c [] s₁ ∧ s₁.device.fifo.queue.length < c ∧
      icapProgram (icap c schedule) os fuel r (fileWord file) s =
        (do
          let control ← writeLoop (icap c schedule) os fuel (fileWord file) (file.length / 4) 0 0 0
          let _ ← transfer (icap c schedule) os fuel control
          let _ ← getReg (icap c schedule) os statusReg s.device.status
          return 0) s₁ := by
  have hsize := hr.fsize
  obtain ⟨s₁, hfifo, hidle₁, heq⟩ := icapProgram_eq (c := c) hr.fp (by omega)
    (by rw [hr.mapped, decide_eq_true hfile]) h hr.idle (fileWord file)
  have hcount : r.fsize.toNat = file.length := by omega
  rw [hcount] at heq
  refine ⟨s₁, ⟨hidle₁, ?_⟩, ?_, heq⟩
  · rw [hfifo, hr.empty]
    exact .start c
  · rw [hfifo, hr.empty]
    exact hc

theorem delivers_of_lt {r : FileReply} {file : List UInt8} (hr : FileReady r file s)
    (h : Responsive os schedule fuel) (hc : 0 < c) (hlong : file.length / 4 < 2 ^ 31) :
    Delivers c schedule os fuel r file s := by
  by_cases hfile : 0 < file.length
  · obtain ⟨s₁, hready, hroom, heq⟩ := hr.loop h hc hfile
    obtain ⟨control, s₂, e₂, hready₂⟩ := writeLoop_returns hc h (fileWord file) (file.length / 4)
      (i := 0) 0 0 (by omega) hready hroom
    obtain ⟨control', s₃, e₃, hready₃, hqueue, hdelivered⟩ := transfer_spec h hready₂ control
    refine ⟨0, ⟨s₃.device, s₃.calls + 1⟩, ?_, hready₃.carries.lost, ?_, hqueue⟩
    · rw [heq, bind_of_ok e₂, bind_of_ok e₃,
        bind_of_ok (getReg_granted (h.grants _ statusReg (by decide)) _)]
      rfl
    · rw [hdelivered, List.nil_append, List.range_eq_range']
  · -- an empty file cannot be mapped, and nothing is done
    have hzero : file.length = 0 := by omega
    have hfp := hr.fp
    have hsize := hr.fsize
    refine ⟨-1, s, ?_, ?_, ?_, ?_⟩
    · rw [icapProgram, if_neg (by omega), if_neg (by omega), if_pos (by simp [hr.mapped, hzero])]
      rfl
    · rw [hr.empty]
      rfl
    · rw [hr.empty, hzero]
      rfl
    · rw [hr.empty]
      rfl

/-- A longer file stops the program in its loop, with nothing lost. -/
theorem overflows_of_le {r : FileReply} {file : List UInt8} (hr : FileReady r file s)
    (h : Responsive os schedule fuel) (hc : 0 < c) (hlong : 2 ^ 31 ≤ file.length / 4) :
    Stops (icapProgram (icap c schedule) os fuel r (fileWord file)) s .overflow
      fun s' => s'.device.fifo.lost = [] := by
  obtain ⟨s₁, hready, hroom, heq⟩ := hr.loop h hc (by omega)
  obtain ⟨s', hrun, hlost⟩ := (writeLoop_overflows hc h (fileWord file) (file.length / 4) (i := 0)
    0 0 (by omega) (by decide) hready hroom).bind
  exact ⟨s', heq.trans hrun, hlost⟩

/-- **The file is delivered exactly when the index of the loop does not overflow.** -/
theorem icap_delivers {r : FileReply} {file : List UInt8} (hr : FileReady r file s)
    (h : Responsive os schedule fuel) (hc : 0 < c) :
    Delivers c schedule os fuel r file s ↔ file.length / 4 < 2 ^ 31 := by
  refine ⟨fun hd => ?_, delivers_of_lt hr h hc⟩
  by_contra hlong
  obtain ⟨rc, s', hrun, -⟩ := hd
  exact (overflows_of_le hr h hc (by omega)).not_ok hrun

/-- Where a `long` has 32 bits the index never does. -/
theorem delivers_of_long32 {r : FileReply} {file : List UInt8} (hr : FileReady r file s)
    (h : Responsive os schedule fuel) (hc : 0 < c) (hlong : r.fsize < 2 ^ 31) :
    Delivers c schedule os fuel r file s := by
  have hsize := hr.fsize
  exact delivers_of_lt hr h hc (by omega)

/-! ## A bench -/

/-- A system that grants everything. -/
def grantingOs : Nat → OsReply := fun _ => ⟨4096, 3, some 0x40000000, true⟩

theorem grants_bench {a : UInt64} (ha : a ≠ 0) :
    OsReply.Grants ⟨4096, 3, some 0x40000000, true⟩ a :=
  ⟨ha, by decide, by decide, rfl, by decide, by decide⟩

/-- A port that needs two looks for every transfer. -/
theorem responsive_bench : Responsive grantingOs (fun _ => [1]) 2 :=
  ⟨fun _ _ => grants_bench, fun _ => by decide⟩

/-- A port that has just been configured. -/
def benchPort : RegState Icap := ⟨⟨.empty, none, 0, 0, 0⟩, 0⟩

theorem fileReady_bench (file : List UInt8) :
    FileReady ⟨3, file.length, decide (0 < file.length)⟩ file benchPort :=
  ⟨(by decide : (0 : Int) ≤ 3), rfl, rfl, rfl, rfl⟩

/-! ## The guarantee -/

/-- **Nothing is lost, and what is finished is delivered.**  No word is written to a full FIFO; when
the program finishes, the words of the file have been delivered in order, each once, and the FIFO is
empty; and it does finish unless the index of the loop overflows. -/
theorem icap_lossless {r : FileReply} {file : List UInt8} (hr : FileReady r file s)
    (h : Responsive os schedule fuel) (hc : 0 < c) :
    (final (icapProgram (icap c schedule) os fuel r (fileWord file)) s).device.fifo.lost = [] ∧
    (∀ rc s', icapProgram (icap c schedule) os fuel r (fileWord file) s = .ok rc s' →
      s'.device.fifo.delivered = (List.range (file.length / 4)).map (fileWord file) ∧
      s'.device.fifo.queue = []) ∧
    (file.length / 4 < 2 ^ 31 →
      ∃ rc s', icapProgram (icap c schedule) os fuel r (fileWord file) s = .ok rc s') := by
  rcases Nat.lt_or_ge (file.length / 4) (2 ^ 31) with hlong | hlong
  · obtain ⟨rc, s', hrun, hlost, hdelivered, hqueue⟩ := delivers_of_lt hr h hc hlong
    refine ⟨?_, fun rc' s'' hrun' => ?_, fun _ => ⟨rc, s', hrun⟩⟩
    · rw [final_of_ok hrun]
      exact hlost
    · obtain ⟨rfl, rfl⟩ := EStateM.Result.ok.inj (hrun'.symm.trans hrun)
      exact ⟨hdelivered, hqueue⟩
  · have hstops := overflows_of_le hr h hc hlong
    exact ⟨hstops.final, fun rc s' hrun => absurd hrun hstops.not_ok, fun h' => by omega⟩

/-- Five words through a FIFO for two. -/
theorem icap_lossless_five : ∃ file rc s', file = (List.range 20).map UInt8.ofNat ∧
    icapProgram (icap 2 fun _ => [1]) grantingOs 2 ⟨3, file.length, decide (0 < file.length)⟩
      (fileWord file) benchPort = .ok rc s' ∧
    s'.device.fifo.lost = [] ∧ s'.device.fifo.queue = [] ∧
    s'.device.fifo.delivered = [0x03020100, 0x07060504, 0x0b0a0908, 0x0f0e0d0c, 0x13121110] := by
  obtain ⟨hlost, hdelivers, hfinishes⟩ := icap_lossless
    (fileReady_bench ((List.range 20).map UInt8.ofNat)) responsive_bench (show 0 < 2 by decide)
  obtain ⟨rc, s', hrun⟩ := hfinishes (by decide)
  rw [final_of_ok hrun] at hlost
  obtain ⟨hdelivered, hqueue⟩ := hdelivers rc s' hrun
  exact ⟨_, rc, s', rfl, hrun, hlost, hqueue, hdelivered.trans (by decide)⟩

end Zedboard
