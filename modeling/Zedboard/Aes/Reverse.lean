import Mathlib.Data.Int.DivMod
import Zedboard.Lib.Bytes
import Zedboard.Lib.Mirror

/-!
# Byte reversal

`byteReverseBuffer16`, `byteReverseBuffer8` and `byteReverseBuffer4` of `aes_fpga.c` reverse the
bytes of every group of a buffer.  The number of groups is rounded up, and the last one is reversed
as a whole even if the buffer ends inside it, so that its bytes change places with those behind the
buffer.

A reversal always undoes itself (`byteReverseBuffer_undoes`), and no index overflows
(`Grouping.index_lt`).  It stays in the buffer if and only if the length is a multiple of the group,
or the bytes behind the buffer are the same as those they change places with (`byteReverse_iff`);
whatever the bytes are, in the first case only (`inPlace_forall_iff`).
-/

set_option autoImplicit false

namespace Zedboard

/-! ## The functions -/

/-- The constants of a reversal: the bytes of a group, the pairs of bytes that are exchanged, and
the place of the last byte. -/
structure Grouping where
  group : Nat
  half : Nat
  last : Nat
  group_eq : group = 2 * half
  last_eq : last + 1 = group
  /-- The last group of the longest buffer ends with the largest index that is an `int`. -/
  dvd_int : group ∣ 2 ^ 31

/-- The loop over the pairs of the group at the address `bufferIndex`.  `tmp` is an `int`, and the
byte that goes back is the one that it was. -/
def reverseGroup (G : Grouping) (mem : Mem) (bufferIndex : Nat) : Nat → Mem
  | 0 => mem
  | j + 1 =>
    let mem := reverseGroup G mem bufferIndex j
    let tmp := mem (bufferIndex + j)
    let mem := Function.update mem (bufferIndex + j) (mem (bufferIndex + G.last - j))
    Function.update mem (bufferIndex + G.last - j) tmp

/-- The loop over the groups from `buffer` on. -/
def reverseGroups (G : Grouping) (mem : Mem) (buffer : Nat) : Nat → Mem
  | 0 => mem
  | i + 1 =>
    reverseGroup G (reverseGroups G mem buffer i) (buffer + G.group * i) G.half

/-- The number of groups, rounded up. -/
def Grouping.iterLen (G : Grouping) (length : Int32) : Int :=
  length.toInt.tdiv G.group + if length.toInt.tmod G.group ≠ 0 then 1 else 0

/-- Reverse the groups of the buffer. -/
def byteReverseBuffer (G : Grouping) (mem : Mem) (buffer : Nat) (length : Int32) : Mem :=
  reverseGroups G mem buffer (G.iterLen length).toNat

/-- The groups of `byteReverseBuffer16`. -/
def Grouping.of16 : Grouping := ⟨16, 8, 15, rfl, rfl, by decide⟩

/-- The groups of `byteReverseBuffer8`. -/
def Grouping.of8 : Grouping := ⟨8, 4, 7, rfl, rfl, by decide⟩

/-- The groups of `byteReverseBuffer4`. -/
def Grouping.of4 : Grouping := ⟨4, 2, 3, rfl, rfl, by decide⟩

/-- `byteReverseBuffer16`. -/
def byteReverseBuffer16 : Mem → Nat → Int32 → Mem := byteReverseBuffer .of16

/-- `byteReverseBuffer8`. -/
def byteReverseBuffer8 : Mem → Nat → Int32 → Mem := byteReverseBuffer .of8

/-- `byteReverseBuffer4`. -/
def byteReverseBuffer4 : Mem → Nat → Int32 → Mem := byteReverseBuffer .of4

/-! ## What they do -/

variable {G : Grouping} {m : Mem} {buffer : Nat} {length : Int32}

theorem Grouping.group_pos (G : Grouping) : 0 < G.group := by
  have := G.last_eq
  omega

/-- Every pass of the inner loop exchanges the next pair. -/
theorem reverseGroup_eq (G : Grouping) (m : Mem) (a : Nat) : ∀ {j : Nat}, j ≤ G.half →
    reverseGroup G m a j = m ∘ mirrorEnds a G.group j
  | 0, _ => by rw [mirrorEnds_zero]; rfl
  | j + 1, h => by
    have hlast : G.last = G.group - 1 := by
      rw [← G.last_eq, Nat.add_sub_cancel]
    have hgroup := G.group_eq
    have ih := reverseGroup_eq G m a (j := j) (by omega)
    rw [mirrorEnds_succ (by omega), ← Function.comp_assoc, ← ih, Equiv.comp_swap_eq_update,
      ← hlast]
    rfl

/-- **The groups are reversed**, one after the other. -/
theorem reverseGroups_eq (G : Grouping) (m : Mem) (buffer : Nat) : ∀ n,
    reverseGroups G m buffer n = m ∘ mirrorGroups buffer G.group n
  | 0 => by rw [mirrorGroups_zero]; rfl
  | n + 1 => by
    rw [reverseGroups, reverseGroup_eq G _ _ le_rfl, reverseGroups_eq G m buffer n,
      mirrorEnds_half G.group_eq, mirrorGroups_succ G.group_pos, Function.comp_assoc]

/-- **A reversal undoes itself**, whatever the length. -/
theorem byteReverseBuffer_undoes (G : Grouping) (m : Mem) (buffer : Nat) (length : Int32) :
    byteReverseBuffer G (byteReverseBuffer G m buffer length) buffer length = m := by
  have h := (mirrorGroups_involutive G.group_pos buffer (G.iterLen length).toNat).comp_self
  rw [byteReverseBuffer, byteReverseBuffer, reverseGroups_eq, reverseGroups_eq,
    Function.comp_assoc, h, Function.comp_id]

/-! ## The last group -/

/-- The number of groups is that of the whole ones, and one more if bytes are left over. -/
theorem Grouping.toNat_iterLen (G : Grouping) {n : Nat} (h : length.toInt = n) :
    (G.iterLen length).toNat = n / G.group + if n % G.group = 0 then 0 else 1 := by
  have hdiv : (n : Int).tdiv G.group = ((n / G.group : Nat) : Int) := rfl
  have hmod : (n : Int).tmod G.group = ((n % G.group : Nat) : Int) := rfl
  rw [iterLen, h, hdiv, hmod]
  generalize n / G.group = q
  by_cases h0 : n % G.group = 0
  · rw [h0, if_neg (by simp), if_pos rfl, Int.add_zero, Int.toNat_natCast, Nat.add_zero]
  · rw [if_pos (by exact_mod_cast h0), if_neg h0]
    omega

/-- **No index overflows an `int`**, not even those behind the buffer. -/
theorem Grouping.index_lt (G : Grouping) {i j : Nat} (hi : i < G.iterLen length)
    (hj : j < G.group) : G.group * i + j < 2 ^ 31 := by
  obtain ⟨q, hq⟩ := G.dvd_int
  have hq0 : 0 < q := Nat.pos_of_ne_zero fun h0 => by
    rw [h0, Nat.mul_zero] at hq
    omega
  have hiq : i < q := by
    rcases Int.le_total 0 length.toInt with h | h
    · obtain ⟨n, hn⟩ := Int.eq_ofNat_of_zero_le h
      have hlt := length.toInt_lt
      have hdiv : n / G.group < q := Nat.div_lt_of_lt_mul (by omega)
      have hcount := G.toNat_iterLen hn
      split at hcount <;> omega
    · -- at most one group, which C makes of a negative length
      have hdiv : 0 ≤ (-length.toInt).tdiv G.group :=
        Int.tdiv_nonneg (by omega) (Int.natCast_nonneg G.group)
      rw [Int.neg_tdiv] at hdiv
      rw [Grouping.iterLen] at hi
      split at hi <;> omega
  have hend := group_le G.group hiq
  omega

/-- The bytes of the group `i` in the opposite order. -/
theorem byteReverseBuffer_add {i j : Nat} (hi : i < (G.iterLen length).toNat) (hj : j < G.group) :
    byteReverseBuffer G m buffer length (buffer + G.group * i + j) =
      m (buffer + G.group * i + (G.group - 1 - j)) := by
  rw [byteReverseBuffer, reverseGroups_eq, Function.comp_apply, mirrorGroups_add hi hj]

theorem byteReverseBuffer_of_outside {x : Nat}
    (h : x < buffer ∨ buffer + G.group * (G.iterLen length).toNat ≤ x) :
    byteReverseBuffer G m buffer length x = m x := by
  rw [byteReverseBuffer, reverseGroups_eq, Function.comp_apply, mirrorGroups_of_outside h]

/-- A reversal of a buffer stays in the buffer and undoes itself. -/
structure InPlace (reverse : Mem → Nat → Int32 → Mem) (mem : Mem) (buffer : Nat)
    (length : Int32) : Prop where
  bounds : ∀ i : Nat, length.toInt ≤ i → reverse mem buffer length (buffer + i) = mem (buffer + i)
  undoes : reverse (reverse mem buffer length) buffer length = mem

/-- The buffer of `n` bytes ends with a group, or the bytes of its last group that lie behind it are
the same as those at the same distance from the beginning of the group. -/
def TailMirrored (group : Nat) (mem : Mem) (buffer n : Nat) : Prop :=
  group ∣ n ∨ ∀ j < group, n % group ≤ j →
    mem (buffer + group * (n / group) + j) =
      mem (buffer + group * (n / group) + (group - 1 - j))

instance (group : Nat) (mem : Mem) (buffer n : Nat) :
    Decidable (TailMirrored group mem buffer n) :=
  inferInstanceAs (Decidable (_ ∨ _))

/-- **Exactly when a reversal is in place.** -/
theorem inPlace_iff (G : Grouping) (m : Mem) (buffer : Nat) {n : Nat} (h : length.toInt = n) :
    InPlace (byteReverseBuffer G) m buffer length ↔ TailMirrored G.group m buffer n := by
  have hsplit := Nat.div_add_mod n G.group
  have hr := Nat.mod_lt n G.group_pos
  have hcount := G.toNat_iterLen h
  constructor
  · intro I
    by_cases h0 : n % G.group = 0
    · exact Or.inl (Nat.dvd_of_mod_eq_zero h0)
    refine Or.inr fun j hj hle => ?_
    rw [if_neg h0] at hcount
    have hkept := I.bounds (G.group * (n / G.group) + j) (by omega)
    rw [← Nat.add_assoc, byteReverseBuffer_add (by omega) hj] at hkept
    exact hkept.symm
  · intro T
    refine ⟨fun x hx => ?_, byteReverseBuffer_undoes G m buffer length⟩
    rcases groups_cases G.group_pos buffer (G.iterLen length).toNat (buffer + x) with
      ⟨i, j, hi, hj, hxij⟩ | hout
    · have hlast : ¬i < n / G.group := fun hlt => by
        have hend := group_le G.group hlt
        omega
      have hragged : n % G.group ≠ 0 := fun h0 => by
        rw [if_pos h0] at hcount
        omega
      rw [if_neg hragged] at hcount
      obtain rfl : i = n / G.group := by omega
      rw [hxij, byteReverseBuffer_add hi hj]
      rcases T with hdvd | T
      · exact absurd (Nat.mod_eq_zero_of_dvd hdvd) hragged
      · exact (T j hj (by omega)).symm
    · exact byteReverseBuffer_of_outside hout

/-- It is in place for any contents exactly when the buffer ends with a group. -/
theorem inPlace_forall_iff (G : Grouping) (buffer : Nat) {n : Nat} (h : length.toInt = n) :
    (∀ m, InPlace (byteReverseBuffer G) m buffer length) ↔ G.group ∣ n := by
  have hgroup := G.group_eq
  have hpos := G.group_pos
  have hr := Nat.mod_lt n hpos
  constructor
  · intro hall
    -- the last byte of the last group would change places with the first one
    have T := (inPlace_iff G (fun x =>
      if x = buffer + G.group * (n / G.group) + (G.group - 1) then 1 else 0) buffer h).1 (hall _)
    rcases T with hdvd | T
    · exact hdvd
    · have hbad := T (G.group - 1) (by omega) (by omega)
      dsimp only at hbad
      rw [if_pos rfl, if_neg (by omega)] at hbad
      exact absurd hbad (by decide)
  · exact fun hdvd m => (inPlace_iff G m buffer h).2 (Or.inl hdvd)

/-- **Exactly when the three reversals are in place.** -/
theorem byteReverse_iff (m : Mem) (buffer : Nat) (length : Int32) (h : 0 ≤ length.toInt) :
    (InPlace byteReverseBuffer16 m buffer length ↔
        TailMirrored 16 m buffer length.toInt.toNat) ∧
      (InPlace byteReverseBuffer8 m buffer length ↔
        TailMirrored 8 m buffer length.toInt.toNat) ∧
      (InPlace byteReverseBuffer4 m buffer length ↔
        TailMirrored 4 m buffer length.toInt.toNat) := by
  have hn : length.toInt = length.toInt.toNat := (Int.toNat_of_nonneg h).symm
  exact ⟨inPlace_iff .of16 m buffer hn, inPlace_iff .of8 m buffer hn, inPlace_iff .of4 m buffer hn⟩

/-- One group of sixteen bytes. -/
theorem byteReverse_iff_sixteen : 0 ≤ (16 : Int32).toInt ∧
    InPlace byteReverseBuffer16 UInt8.ofNat 0 16 ∧ InPlace byteReverseBuffer8 UInt8.ofNat 0 16 ∧
    InPlace byteReverseBuffer4 UInt8.ofNat 0 16 := by
  have h : 0 ≤ (16 : Int32).toInt := by decide
  obtain ⟨h16, h8, h4⟩ := byteReverse_iff UInt8.ofNat 0 16 h
  exact ⟨h, h16.2 (Or.inl (by decide)), h8.2 (Or.inl (by decide)), h4.2 (Or.inl (by decide))⟩

/-- **The byte behind the buffer is changed**: the three bytes `0`, `1`, `2`, and `3` behind them,
are reversed together. -/
theorem byteReverseBuffer4_overruns : ¬∀ (m : Mem) (buffer : Nat) (length : Int32),
    0 ≤ length.toInt → InPlace byteReverseBuffer16 m buffer length ∧
      InPlace byteReverseBuffer8 m buffer length ∧ InPlace byteReverseBuffer4 m buffer length := by
  intro h
  obtain ⟨-, -, h4⟩ := h UInt8.ofNat 0 3 (by decide)
  have hbad : byteReverseBuffer4 UInt8.ofNat 0 3 3 = 3 := h4.bounds 3 (by decide)
  exact absurd hbad (by decide)

end Zedboard
