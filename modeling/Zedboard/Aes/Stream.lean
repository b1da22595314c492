import Zedboard.Aes.Calls

/-!
# Counter mode over many calls

A stream is a cipher together with the messages it has been given and the bytes it has returned.
Between two calls the clients of the allocator do what they like, and so does everybody else who
uses the device.

* `counters_in_step`: the two copies of the counter are the same number after any history of calls
  whose counter additions miss no carry;
* `ctr_stream`: then what has been returned is what has been given, combined with the stream of the
  enciphered counters, however it was cut.

`addIvOpenssl` infers a carry from the sum being smaller than the byte, so it misses one when a byte
`0xff` of the addend meets a carry.  `counters_drift` and `ctr_stream_fails` are a call of 65281
blocks that comes to that.
-/

set_option autoImplicit false

namespace Zedboard

open Machine Prog

/-! ## Streams -/

/-- A cipher, the messages it has been given, and the bytes it has returned. -/
structure Stream where
  cipher : FpgaAes
  messages : List (List UInt8)
  output : List UInt8

/-- The type of the functions that encipher from one buffer to another. -/
abbrev Encryption := FpgaAes → Nat → Nat → Nat → UInt32 → UInt32 → Prog (Int × FpgaAes)

/-- One action: of a client of the allocator, of somebody else on the device, or a call of `F` that
returns.  The buffers of a call are disjoint parts of payloads, and it meets the condition `Q`. -/
inductive StreamStep (P : Platform) (F : Encryption) (Q : FpgaAes → Nat → Prop) :
    Machine × Stream → Machine × Stream → Prop
  | client {m : Machine} {x : Stream} {op : Memmgr.Op} {S : Memmgr.Session}
      (h : Memmgr.Step P.env m.session op S) :
      StreamStep P F Q (m, x) ({ m with session := S }, x)
  | device {m : Machine} {x : Stream} (dark : UInt32 → UInt8) (regs : Reg → UInt32)
      (jobs : List Started) : StreamStep P F Q (m, x) ({ m with dark, regs, jobs }, x)
  | call {m m' : Machine} {x : Stream} {c : FpgaAes} {input output len : Nat} {rc : Int}
      (hq : Q x.cipher len) (hin : m.session.Owns input len) (hout : m.session.Owns output len)
      (hapart : Mem.Apart input len output len)
      (h : F x.cipher input len output (m.phys input) (m.phys output) m = .ok (rc, c) m') :
      StreamStep P F Q (m, x) (m', ⟨c, x.messages ++ [m.session.st.mem.bytes input len],
        x.output ++ m'.session.st.mem.bytes output len⟩)

/-- Any number of actions. -/
def StreamRun (P : Platform) (F : Encryption) (Q : FpgaAes → Nat → Prop) :
    Machine × Stream → Machine × Stream → Prop := Relation.ReflTransGen (StreamStep P F Q)

variable {P : Platform} {m m' : Machine}

/-- Two runs of bytes that differ by a stream. -/
theorem bytes_eq_xorFrom {mem mem' : Mem} {input output len p : Nat} {ks : Nat → UInt8} :
    mem'.bytes output len = xorFrom ks p (mem.bytes input len) ↔
      ∀ k, k < len → mem' (output + k) = mem (input + k) ^^^ ks (p + k) := by
  constructor
  · intro h k hk
    have h1 := congrArg (fun l : List UInt8 => l[k]?) h
    simpa [xorFrom, hk, Mem.bytes] using h1
  · intro h
    refine List.ext_getElem (by simp) fun k h1 h2 => ?_
    rw [Mem.length_bytes] at h1
    simp [xorFrom, h k h1]

/-- Two calls, one after the other. -/
theorem StreamRun.two {F : Encryption} {Q : FpgaAes → Nat → Prop} {m₁ m₂ : Machine}
    {c c₁ c₂ : FpgaAes} {in₁ out₁ len₁ in₂ out₂ len₂ : Nat} {rc₁ rc₂ : Int}
    (hq₁ : Q c len₁) (hin₁ : m.session.Owns in₁ len₁) (hout₁ : m.session.Owns out₁ len₁)
    (hapart₁ : Mem.Apart in₁ len₁ out₁ len₁)
    (h₁ : F c in₁ len₁ out₁ (m.phys in₁) (m.phys out₁) m = .ok (rc₁, c₁) m₁)
    (hq₂ : Q c₁ len₂) (hin₂ : m₁.session.Owns in₂ len₂) (hout₂ : m₁.session.Owns out₂ len₂)
    (hapart₂ : Mem.Apart in₂ len₂ out₂ len₂)
    (h₂ : F c₁ in₂ len₂ out₂ (m₁.phys in₂) (m₁.phys out₂) m₁ = .ok (rc₂, c₂) m₂) :
    StreamRun P F Q (m, ⟨c, [], []⟩)
      (m₂, ⟨c₂, [m.session.st.mem.bytes in₁ len₁, m₁.session.st.mem.bytes in₂ len₂],
        m₁.session.st.mem.bytes out₁ len₁ ++ m₂.session.st.mem.bytes out₂ len₂⟩) :=
  .tail (.single (.call hq₁ hin₁ hout₁ hapart₁ h₁)) (.call hq₂ hin₂ hout₂ hapart₂ h₂)

/-- What it means for two outputs in a row to be right. -/
theorem two_outputs {mem mem₁ mem₂ : Mem} {in₁ out₁ len₁ in₂ out₂ len₂ : Nat} {ks : Nat → UInt8}
    (h : mem₁.bytes out₁ len₁ ++ mem₂.bytes out₂ len₂ =
      xorFrom ks 0 [mem.bytes in₁ len₁, mem₁.bytes in₂ len₂].flatten) :
    (∀ k, k < len₁ → mem₁ (out₁ + k) = mem (in₁ + k) ^^^ ks k) ∧
      ∀ k, k < len₂ → mem₂ (out₂ + k) = mem₁ (in₂ + k) ^^^ ks (len₁ + k) := by
  have hflat : [mem.bytes in₁ len₁, mem₁.bytes in₂ len₂].flatten =
      mem.bytes in₁ len₁ ++ mem₁.bytes in₂ len₂ := by simp
  rw [hflat, xorFrom_append, Mem.length_bytes, Nat.zero_add] at h
  obtain ⟨h₁, h₂⟩ := List.append_inj h (by simp)
  refine ⟨fun k hk => ?_, bytes_eq_xorFrom.1 h₂⟩
  rw [bytes_eq_xorFrom.1 h₁ k hk, Nat.zero_add]

/-! ## The invariant -/

/-- The stream is in order: the heap is, the cipher is where counter mode should be, and what it has
returned is right. -/
structure Streaming (P : Platform) (E : Block → Block) (v : Nat) (length : UInt32)
    (x : Machine × Stream) : Prop where
  inv : ∃ bs, Memmgr.Inv P.env x.1.session bs
  size : x.1.session.st.poolSize = length
  encipher : x.2.cipher.core.encipher P.aes = E
  place : Core.At P.aes v x.2.messages.flatten.length x.2.cipher.core
  output_eq : x.2.output = xorFrom (keystream E v) 0 x.2.messages.flatten

variable {E : Block → Block} {v : Nat} {length : UInt32} {x y : Machine × Stream}

/-- What is known of a call that has returned. -/
theorem ctrHw_settled {bs : List Memmgr.Block} {c c' : FpgaAes} {input output len : Nat} {rc : Int}
    (I : Memmgr.Inv P.env m.session bs)
    (hf : 2 * m.session.st.poolSize.toNat + 2 ≤ P.fuel) (hlen : len < 2 ^ 31)
    (hin : m.session.Owns input len) (hout : m.session.Owns output len) (hloc : c.lastLocation < 16)
    (hcall : aesEncryptCtrHw P c input len output (m.phys input) (m.phys output) m =
      .ok (rc, c') m') :
    (∃ js, Settled P m output len js m') ∧ c'.core = c.core.advance P.aes len ∧
      (Mem.Apart input len output len → ∀ k, k < len → m'.session.st.mem (output + k) =
        m.session.st.mem (input + k) ^^^ c.core.emit P.aes len k) := by
  have hserves : c.core.extraBytes len = 0 ∨ Memmgr.Serves P.env m.session.st bs 2 := by
    by_contra hnot
    rw [not_or] at hnot
    exact (ctrHw_stops I hf (Nat.sub_lt_of_lt hlen) hin hout hnot.1 hnot.2).not_ok hcall
  obtain ⟨c'', m'', js, hrun, S, -, hcore, hbytes⟩ :=
    ctrHw_returns I hf (Nat.sub_lt_of_lt hlen) hin hout hloc hserves
  rw [hcall] at hrun
  cases hrun
  exact ⟨⟨js, S⟩, hcore, hbytes⟩

/-- One action keeps the stream in order. -/
theorem Streaming.step (h : Streaming P E v length x) (hf : 2 * length.toNat + 2 ≤ P.fuel)
    (hstep : StreamStep P (aesEncryptCtrHw P) Safe x y) : Streaming P E v length y := by
  obtain ⟨bs, I⟩ := h.inv
  cases hstep with
  | client hop =>
    obtain ⟨bs', I', -⟩ := I.step hop
    exact ⟨⟨bs', I'⟩, (I.step_poolSize hop).trans h.size, h.encipher, h.place, h.output_eq⟩
  | device => exact ⟨⟨bs, I⟩, h.size, h.encipher, h.place, h.output_eq⟩
  | @call m m' x c input output len rc hq hin hout hapart hcall =>
    have hf' : 2 * m.session.st.poolSize.toNat + 2 ≤ P.fuel := by rwa [show _ = length from h.size]
    have hloc : x.cipher.lastLocation < 16 := by
      rw [show x.cipher.lastLocation = _ from h.place.location]
      omega
    obtain ⟨⟨js, S⟩, hcore, hbytes⟩ := ctrHw_settled I hf' hq.1 hin hout hloc hcall
    have hout' : m'.session.st.mem.bytes output len = xorFrom (keystream E v)
        x.messages.flatten.length (m.session.st.mem.bytes input len) := by
      refine bytes_eq_xorFrom.2 fun k hk => ?_
      rw [hbytes hapart k hk, h.place.emit_eq hq.1 hq.2 hk, h.encipher]
    refine ⟨S.inv, by rw [S.frame.poolSize_eq]; exact h.size, ?_, ?_, ?_⟩
    · rw [show c.core = _ from hcore, Core.advance_encipher]
      exact h.encipher
    · have := h.place.advance hq.1 hq.2
      rw [← hcore] at this
      simpa using this
    · rw [hout', show x.output = _ from h.output_eq, List.flatten_append, List.flatten_singleton,
        xorFrom_append, Nat.zero_add]

theorem Streaming.run (h : Streaming P E v length x) (hf : 2 * length.toNat + 2 ≤ P.fuel)
    (hrun : StreamRun P (aesEncryptCtrHw P) Safe x y) : Streaming P E v length y := by
  induction hrun with
  | refl => exact h
  | tail _ hstep ih => exact ih.step hf hstep

/-- A new cipher begins a stream. -/
theorem Streaming.fresh {s : Memmgr.State} {buffer : Nat} {baseAddress base : UInt32} {r : NewReply}
    {key iv : List UInt8} {mode : Int} {c : FpgaAes} (hs : s.session = 0)
    (hp : buffer = 0 ∨ Memmgr.Placed P.env buffer length)
    (hS : Memmgr.Reachable P.env s buffer length baseAddress m.session)
    (hkey : key.length = 16) (hiv : iv.length = 16)
    (hnew : fpgaAesNew r key base iv 16 mode = some c) :
    Streaming P (P.aes (blockOf key)) (counter iv) length (m, ⟨c, [], []⟩) := by
  refine ⟨hS.inv hs hp, hS.poolSize_eq hs hp, ?_, Core.at_fresh hnew hiv, rfl⟩
  rw [Core.encipher, show c.core.key = Words.pack key from (fresh_inStep hnew hiv).2.2.2,
    toBytes_pack hkey]

/-! ## A bench -/

/-- The machine of a session. -/
def Machine.on (S : Memmgr.Session) : Machine := ⟨S, fun _ => 0, fun _ => 0, []⟩

/-- A block cipher: it turns the block by five bytes, and adds the key. -/
def benchAes (key block : Block) : Block := fun i => block (i + 5) + key i + 1

/-- The 32-bit target with the block cipher `aes`. -/
def Platform.zynq (aes : Block → Block → Block) : Platform :=
  ⟨Env.zynq, aes, 0x1000002, ⟨4096, 3, none, true⟩⟩

theorem zynq_fuel (aes : Block → Block → Block) :
    2 * (0x800000 : UInt32).toNat + 2 ≤ (Platform.zynq aes).fuel := by
  show 2 * (0x800000 : UInt32).toNat + 2 ≤ 0x1000002
  decide

theorem zynq_placed_shared : Memmgr.Placed Env.zynq 0x100000 0x800000 where
  pool_pos := by decide
  fits := by decide
  beside := by decide
  room := by decide

/-- There is room for more, and the two buffers are zero at their beginning. -/
def BenchReady (s : Memmgr.State) : Prop :=
  Memmgr.Roomy Env.zynq s 2 ∧ s.pool = 0x100000 ∧ s.largestAllocation = 0x100000 ∧
    ∀ k, k < 32 → s.mem (0x100014 + k) = 0 ∧ s.mem (0x20002c + k) = 0

instance (s : Memmgr.State) : Decidable (BenchReady s) :=
  inferInstanceAs (Decidable (_ ∧ _ ∧ _ ∧ ∀ k, k < 32 → _ ∧ _))

/-- Two buffers of a megabyte. -/
theorem bench_reachable : ∃ S,
    Memmgr.Reachable Env.zynq (Memmgr.State.loaded fun _ => 0) 0x100000 0x800000 0x1f410000 S ∧
      S.live = [(0x20002c, 0x100000), (0x100014, 0x100000)] ∧ BenchReady S.st := by
  have h : ((Memmgr.memmgrAlloc Env.zynq 100 (Memmgr.memmgrInit Env.zynq
      (Memmgr.State.loaded fun _ => 0) 0x100000 0x800000 0x1f410000) 0x100000).bind fun r =>
        (Memmgr.memmgrAlloc Env.zynq 100 r.2 0x100000).map fun r' =>
          (r.1, r'.1, r.2.poolSize, decide (BenchReady r'.2))) =
      some (0x100014, 0x20002c, 0x800000, true) := by
    decide +kernel
  simp only [Option.bind_eq_some_iff, Option.map_eq_some_iff, Prod.mk.injEq,
    decide_eq_true_eq] at h
  obtain ⟨⟨p, s₁⟩, h₁, ⟨q, s₂⟩, h₂, rfl, rfl, hsize, hrest⟩ := h
  dsimp only at h₂ hsize hrest
  have hn : 0x100000 ≤ s₁.poolSize.toNat := by rw [hsize]; decide
  exact ⟨⟨s₂, _⟩, .tail (.tail .refl ⟨_, trivial, .alloc (by decide) h₁⟩)
    ⟨_, trivial, .alloc hn h₂⟩, rfl, hrest⟩

/-- A new cipher with the key 0 and the counter 255. -/
def benchCipher : FpgaAes where
  sharedMemBase := baseAddressConst
  iv := List.replicate 15 0 ++ [255]
  ivLength := 16
  keyIn := Words.pack (List.replicate 16 0)
  ivIn := Words.pack (List.replicate 15 0 ++ [255])
  mode := 2
  bytesProcessed := 0
  previousStorage := fun _ => 0
  currentBlockStart := 0
  lastLocation := 0
  lastSource := 0
  lastDest := 0
  lastMode := -1
  lastBytes := -1
  keyWritten := false
  ivWritten := false
  updateKey := true
  updateSourceAddress := true
  updateDestAddress := true
  updateNumBytes := true
  updateIv := true
  updateMode := true

theorem benchCipher_new : fpgaAesNewShort16 ⟨fun _ => 0, true, true, true, true, true, true⟩
    (List.replicate 16 0) (List.replicate 15 0 ++ [255]) = some benchCipher := rfl

/-- A call on a machine that holds the two buffers: from the one to the other. -/
theorem bench_call (aes : Block → Block → Block) {bs : List Memmgr.Block}
    (I : Memmgr.Inv Env.zynq m.session bs)
    (hlive : m.session.live = [(0x20002c, 0x100000), (0x100014, 0x100000)])
    (hsize : m.session.st.poolSize = 0x800000) {c : FpgaAes} (hloc : c.lastLocation < 16)
    (k len : Nat) (hlen : k + len ≤ 0x100000)
    (h : c.core.extraBytes len = 0 ∨ Memmgr.Roomy Env.zynq m.session.st 2) :
    ∃ c' m' js, aesEncryptCtrHw (Platform.zynq aes) c (0x100014 + k) len (0x20002c + k)
        (m.phys (0x100014 + k)) (m.phys (0x20002c + k)) m = .ok ((len : Int), c') m' ∧
      m.session.Owns (0x100014 + k) len ∧ m.session.Owns (0x20002c + k) len ∧
      Mem.Apart (0x100014 + k) len (0x20002c + k) len ∧
      Settled (Platform.zynq aes) m (0x20002c + k) len js m' ∧
      c'.core = c.core.advance aes len ∧
      ∀ i, i < len → m'.session.st.mem (0x20002c + k + i) =
        m.session.st.mem (0x100014 + k + i) ^^^ c.core.emit aes len i := by
  have hin : m.session.Owns (0x100014 + k) len :=
    ⟨0x100014, 0x100000, by simp [hlive], by omega, by omega⟩
  have hout : m.session.Owns (0x20002c + k) len :=
    ⟨0x20002c, 0x100000, by simp [hlive], by omega, by omega⟩
  have hapart : Mem.Apart (0x100014 + k) len (0x20002c + k) len := by
    unfold Mem.Apart
    omega
  have hf : 2 * m.session.st.poolSize.toNat + 2 ≤ (Platform.zynq aes).fuel := by
    rw [hsize]
    exact zynq_fuel aes
  obtain ⟨c', m', js, hrun, S, -, hcore, hbytes⟩ := ctrHw_returns (P := Platform.zynq aes) I
    hf (by omega) hin hout hloc (h.imp id Or.inl)
  rw [cInt_of_lt (by omega)] at hrun
  exact ⟨c', m', js, hrun, hin, hout, hapart, S, hcore, hbytes hapart⟩

/-! ## The counters -/

/-- **The two copies of the counter are the same number** after any history of calls that are safe:
each counter addition misses no carry, and no length overflows. -/
theorem counters_in_step {r : NewReply} {key iv : List UInt8} {base : UInt32} {mode : Int}
    {c₀ c : FpgaAes} (hiv : iv.length = 16) (hnew : fpgaAesNew r key base iv 16 mode = some c₀)
    (hrun : Used P Safe c₀ c) : InStep c.iv c.ivIn := by
  obtain ⟨hstep, hloc, -, -⟩ := fresh_inStep hnew hiv
  exact (hrun.inStep (by omega) hstep).1

/-- A history of one call, for a thousand bytes. -/
theorem counters_in_step_zynq : ∃ c,
    Used (Platform.zynq benchAes) Safe benchCipher c ∧ c.iv ≠ benchCipher.iv ∧
      InStep c.iv c.ivIn := by
  obtain ⟨S, hS, hlive, hroomy, -⟩ := bench_reachable
  obtain ⟨bs, I⟩ := hS.inv rfl (Or.inr zynq_placed_shared)
  obtain ⟨c, m', js, hrun, -, -, -, -, hcore, -⟩ := bench_call benchAes
    (m := Machine.on S) (c := benchCipher) I hlive
    (hS.poolSize_eq rfl (Or.inr zynq_placed_shared)) (by decide) 0 1000 (by decide) (Or.inr hroomy)
  have hused : Used (Platform.zynq benchAes) Safe benchCipher c :=
    .single ⟨1000, by decide, .ctrHw hrun⟩
  refine ⟨c, hused, ?_, counters_in_step (by rfl) benchCipher_new hused⟩
  rw [show c.iv = _ from congrArg Core.iv hcore]
  decide

/-- **They drift apart** in a call of 65281 blocks from the counter 255. -/
theorem counters_drift : ∃ S m' c rc,
    Memmgr.Reachable Env.zynq (Memmgr.State.loaded fun _ => 0) 0x100000 0x800000 0x1f410000 S ∧
      aesEncryptCtrHw (Platform.zynq benchAes) benchCipher 0x100014 1044496 0x20002c
        ((Machine.on S).phys 0x100014) ((Machine.on S).phys 0x20002c) (Machine.on S) =
          .ok (rc, c) m' ∧
      ¬InStep c.iv c.ivIn := by
  obtain ⟨S, hS, hlive, -⟩ := bench_reachable
  obtain ⟨bs, I⟩ := hS.inv rfl (Or.inr zynq_placed_shared)
  obtain ⟨c, m', js, hrun, -, -, -, -, hcore, -⟩ := bench_call benchAes
    (m := Machine.on S) (c := benchCipher) I hlive
    (hS.poolSize_eq rfl (Or.inr zynq_placed_shared)) (by decide) 0 1044496 (by decide)
    (Or.inl (by decide))
  refine ⟨S, m', c, _, hS, hrun, ?_⟩
  rw [show c.iv = _ from congrArg Core.iv hcore, show c.ivIn = _ from congrArg Core.ivIn hcore]
  decide

/-! ## The stream -/

/-- **What has been returned is what has been given, combined with the stream of the enciphered
counters**, in any run whose calls are safe.  And the run can go on: a call returns when there are
scratch blocks or none are needed. -/
theorem ctr_stream {s : Memmgr.State} {buffer : Nat} {length baseAddress base : UInt32}
    {m₀ : Machine} {r : NewReply} {key iv : List UInt8} {mode : Int} {c₀ : FpgaAes} {x : Stream}
    (hs : s.session = 0) (hp : buffer = 0 ∨ Memmgr.Placed P.env buffer length)
    (hS : Memmgr.Reachable P.env s buffer length baseAddress m₀.session)
    (hf : 2 * length.toNat + 2 ≤ P.fuel) (hkey : key.length = 16) (hiv : iv.length = 16)
    (hnew : fpgaAesNew r key base iv 16 mode = some c₀)
    (hrun : StreamRun P (aesEncryptCtrHw P) Safe (m₀, ⟨c₀, [], []⟩) (m, x)) :
    x.output = xorFrom (keystream (P.aes (blockOf key)) (counter iv)) 0 x.messages.flatten ∧
      ∃ bs, Memmgr.WellFormed P.env m.session bs ∧ ∀ input output len, len < 2 ^ 31 →
        m.session.Owns input len → m.session.Owns output len →
        x.cipher.core.extraBytes len = 0 ∨ Memmgr.Serves P.env m.session.st bs 2 →
        ∃ c m', aesEncryptCtrHw P x.cipher input len output (m.phys input) (m.phys output) m =
          .ok ((len : Int), c) m' := by
  have h := (Streaming.fresh hs hp hS hkey hiv hnew).run hf hrun
  obtain ⟨bs, I⟩ := h.inv
  refine ⟨h.output_eq, bs, I.wellFormed, fun input output len hlen hin hout hserves => ?_⟩
  have hloc : x.cipher.lastLocation < 16 := by
    rw [show x.cipher.lastLocation = _ from h.place.location]
    omega
  obtain ⟨c, m', -, hcall, -⟩ := ctrHw_returns I (by rwa [show _ = length from h.size])
    (Nat.sub_lt_of_lt hlen) hin hout hloc hserves
  exact ⟨c, m', by rw [hcall, cInt_of_lt hlen]⟩

/-- A run of one call, for a thousand bytes. -/
theorem ctr_stream_zynq : ∃ S m x,
    Memmgr.Reachable Env.zynq (Memmgr.State.loaded fun _ => 0) 0x100000 0x800000 0x1f410000 S ∧
      StreamRun (Platform.zynq benchAes) (aesEncryptCtrHw (Platform.zynq benchAes)) Safe
        (Machine.on S, ⟨benchCipher, [], []⟩) (m, x) ∧
      x.messages.flatten.length = 1000 ∧
      x.output = xorFrom (keystream (benchAes (blockOf (List.replicate 16 0)))
        (counter (List.replicate 15 0 ++ [255]))) 0 x.messages.flatten := by
  obtain ⟨S, hS, hlive, hroomy, -⟩ := bench_reachable
  obtain ⟨bs, I⟩ := hS.inv rfl (Or.inr zynq_placed_shared)
  obtain ⟨c, m', js, hcall, hin, hout, hapart, -⟩ := bench_call benchAes
    (m := Machine.on S) (c := benchCipher) I hlive
    (hS.poolSize_eq rfl (Or.inr zynq_placed_shared)) (by decide) 0 1000 (by decide) (Or.inr hroomy)
  have hstep := StreamStep.call (P := Platform.zynq benchAes) (Q := Safe)
    (x := ⟨benchCipher, [], []⟩) (by decide) hin hout hapart hcall
  have hrun := Relation.ReflTransGen.single hstep
  exact ⟨S, _, _, hS, hrun, by simp, (ctr_stream rfl (Or.inr zynq_placed_shared) hS
    (zynq_fuel _) (by rfl) (by rfl) benchCipher_new hrun).1⟩

/-- Counter mode would be right with the block cipher `aes` in any run whose lengths do not
overflow. -/
def StreamCorrect (aes : Block → Block → Block) : Prop :=
  ∀ {P : Platform} {s : Memmgr.State} {buffer : Nat} {length baseAddress base : UInt32}
    {m₀ m : Machine} {r : NewReply} {key iv : List UInt8} {mode : Int} {c₀ : FpgaAes} {x : Stream},
    P.aes = aes → s.session = 0 → (buffer = 0 ∨ Memmgr.Placed P.env buffer length) →
    Memmgr.Reachable P.env s buffer length baseAddress m₀.session →
    2 * length.toNat + 2 ≤ P.fuel → key.length = 16 → iv.length = 16 →
    fpgaAesNew r key base iv 16 mode = some c₀ →
    StreamRun P (aesEncryptCtrHw P) (fun _ len => len < 2 ^ 31) (m₀, ⟨c₀, [], []⟩) (m, x) →
    x.output = xorFrom (keystream (aes (blockOf key)) (counter iv)) 0 x.messages.flatten

/-- The counter bytes after 65281 blocks from the counter 255. -/
theorem bench_tailIv : benchCipher.core.tailIv 1044497 = List.replicate 16 0 := by decide

theorem bench_counter : counter (List.replicate 15 0 ++ [255]) = 255 := by decide

theorem bench_extraBytes : benchCipher.core.extraBytes 1044497 = 1 := by decide

/-- **It is not**, whatever the block cipher: after 65281 blocks from the counter 255 a call that
ends in the next block takes that block from the counter 0. -/
theorem ctr_stream_fails :
    ¬∃ aes : Block → Block → Block, (∀ k, Function.Injective (aes k)) ∧ StreamCorrect aes := by
  rintro ⟨aes, hinj, hcorrect⟩
  obtain ⟨S, hS, hlive, hroomy, -⟩ := bench_reachable
  obtain ⟨bs, I⟩ := hS.inv rfl (Or.inr zynq_placed_shared)
  have hsize := hS.poolSize_eq rfl (Or.inr zynq_placed_shared)
  -- 65281 blocks and a byte, then the rest of that block
  obtain ⟨c₁, m₁, js₁, hcall₁, hin₁, hout₁, hapart₁, S₁, hcore₁, hbytes₁⟩ := bench_call aes
    (m := Machine.on S) (c := benchCipher) I hlive hsize (by decide) 0 1044497
    (by decide) (Or.inr hroomy)
  obtain ⟨bs₁, I₁⟩ := S₁.inv
  have hloc₁ : c₁.core.lastLocation = 1 := by
    rw [hcore₁, Core.advance, if_neg (by decide)]
    exact bench_extraBytes
  have hstorage₁ : c₁.core.previousStorage =
      aes (blockOf (Words.pack (List.replicate 16 0)).toBytes) (blockOf (List.replicate 16 0)) := by
    rw [hcore₁, Core.advance, if_neg (by decide), bench_tailIv]
    rfl
  obtain ⟨c₂, m₂, js₂, hcall₂, hin₂, hout₂, hapart₂, -, -, hbytes₂⟩ := bench_call aes
    (c := c₁) I₁ (S₁.live_eq.trans hlive)
    (S₁.frame.poolSize_eq.trans hsize) (by rw [show c₁.lastLocation = 1 from hloc₁]; decide)
    1044497 15 (by decide) (Or.inl (by rw [Core.extraBytes, Core.leftover, hloc₁]; decide))
  -- the right stream has the block of another counter there
  obtain ⟨h₁, h₂⟩ := two_outputs (hcorrect rfl rfl (Or.inr zynq_placed_shared) hS (zynq_fuel aes)
    (by rfl) (by rfl) benchCipher_new (StreamRun.two (P := Platform.zynq aes) (by decide) hin₁ hout₁
      hapart₁ hcall₁ (by decide) hin₂ hout₂ hapart₂ hcall₂))
  have hleft₁ : benchCipher.core.leftover 1044497 = 0 := by decide
  have hleft₂ : c₁.core.leftover 15 = 15 := by rw [Core.leftover, hloc₁]; decide
  have hblock : ∀ j : Fin 16,
      aes (blockOf (List.replicate 16 0)) (blockOf (List.replicate 16 0)) j =
      aes (blockOf (List.replicate 16 0)) (counterBlock (255 + 65281)) j := by
    intro j
    by_cases hj : j.val = 0
    · have h3 := h₁ 1044496 (by decide)
      rw [hbytes₁ 1044496 (by decide), UInt8.xor_right_inj, Core.emit, if_neg (by decide),
        if_neg (by decide), bench_tailIv, hleft₁, keystream, bench_counter,
        Block.at_eq (j := j) (by omega), Block.at_eq (j := j) (by omega)] at h3
      exact h3
    · have h3 := h₂ (j.val - 1) (by omega)
      rw [hbytes₂ (j.val - 1) (by omega), UInt8.xor_right_inj, Core.emit, hleft₂,
        if_pos (by omega), hstorage₁, hloc₁, keystream, bench_counter,
        Block.at_eq (j := j) (by omega), Block.at_eq (j := j) (by omega)] at h3
      rwa [show (1044497 + (j.val - 1)) / 16 = 65281 by omega] at h3
  have h3 := hinj _ (funext hblock)
  rw [blockOf_eq (by rfl)] at h3
  exact absurd (counterBlock_inj (by decide) (by decide) h3) (by decide)

end Zedboard
