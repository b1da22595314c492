import Mathlib.Data.List.GetD
import Mathlib.Logic.Function.Iterate
import Mathlib.Tactic.NormNum
import Zedboard.Lib.CounterMode

/-!
# The two copies of the counter

The counter of a cipher exists twice: as the sixteen bytes `iv`, most significant first, which the
software enciphers for the last partial block, and as the four words `iv_in` that go to the device.
`addIvOpenssl` advances the bytes and the loop of `addIvCipher` the words.

Both loops are one pass of `ripple`.  For the words that is always so (`counter_addWords`).  The
bytes infer a carry from a sum that is less than a summand, and miss it when a byte `0xff` of the
addend meets a carry; `CarrySafe` says that this does not happen, and then `addIvOpenssl` adds
(`counter_addIvOpenssl`).

`char` is unsigned, as it is on the ARM targets.
-/

set_option autoImplicit false

namespace Zedboard

/-! ## Bytes and words -/

/-- The number in the bytes `iv`, most significant first. -/
def counter (iv : List UInt8) : Nat := Nat.ofDigits 256 (iv.reverse.map UInt8.toNat)

/-- The sixteen bytes of a block, from a buffer. -/
def blockOf (l : List UInt8) : Block := fun i => l.getD i 0

/-- The bytes of a word in memory, least significant first. -/
def le4 (w : UInt32) : List UInt8 := (List.range 4).map fun k => UInt8.ofNat (digit 256 w.toNat k)

/-- The word in four bytes of memory. -/
def ofLe (l : List UInt8) : UInt32 := UInt32.ofNat (Nat.ofDigits 256 (l.map UInt8.toNat))

/-- `__bswap_32`. -/
def bswap32 (w : UInt32) : UInt32 := ofLe (le4 w).reverse

/-- `XAes_Key_in_v` and `XAes_Iv_v`: four words. -/
structure Words where
  word0 : UInt32
  word1 : UInt32
  word2 : UInt32
  word3 : UInt32
  deriving DecidableEq, Repr

/-- The four words as they lie in memory. -/
def Words.toBytes (w : Words) : List UInt8 :=
  le4 w.word0 ++ le4 w.word1 ++ le4 w.word2 ++ le4 w.word3

/-- The word that `fpga_aes_new` makes of the bytes from `curIndex` on. -/
def packWord (b : List UInt8) (curIndex : Nat) : UInt32 :=
  (b.getD curIndex 0).toUInt32 + (b.getD (curIndex + 1) 0).toUInt32 * 0x100 +
    (b.getD (curIndex + 2) 0).toUInt32 * 0x10000 + (b.getD (curIndex + 3) 0).toUInt32 * 0x1000000

/-- The four words that `fpga_aes_new` makes of sixteen bytes. -/
def Words.pack (b : List UInt8) : Words :=
  ⟨packWord b 0, packWord b 4, packWord b 8, packWord b 12⟩

/-! ## Adding -/

/-- The loop of `addIvOpenssl`, over the bytes from the last one to the first. -/
def addIvLoop : List UInt8 → Int → UInt8 → List UInt8
  | [], _, _ => []
  | low :: rest, numLocal, carry =>
    if numLocal = 0 ∧ carry = 0 then low :: rest
    else
      let sum := low + UInt8.ofInt numLocal + carry
      sum :: addIvLoop rest (numLocal >>> (8 : Nat)) (if sum < low then 1 else 0)

/-- `addIvOpenssl`.  `numLocal` is an `int`, so a large `num` becomes negative. -/
def addIvOpenssl (iv : List UInt8) (num : UInt32) : List UInt8 :=
  (addIvLoop iv.reverse num.toBitVec.toInt 0).reverse

/-- The loop of `addIvCipher`, over the words from `word_3` to `word_0`. -/
def addWordLoop : List UInt32 → UInt32 → UInt32 → List UInt32
  | [], _, _ => []
  | current :: rest, currentNum, carry =>
    if currentNum = 0 ∧ carry = 0 then current :: rest
    else
      let orig := bswap32 current
      let temp := orig + currentNum + carry
      bswap32 temp :: addWordLoop rest 0 (if temp < orig then 1 else 0)

/-- What `addIvCipher` does with the words. -/
def addWords (w : Words) (num : UInt32) : Words :=
  let r := addWordLoop [w.word3, w.word2, w.word1, w.word0] num 0
  ⟨r.getD 3 0, r.getD 2 0, r.getD 1 0, r.getD 0 0⟩

/-- The loop of `incrementIv`, over the bytes from the last one to the first. -/
def incrementLoop : List UInt8 → List UInt8
  | [] => []
  | b :: rest =>
    let current := b.toUInt32 + 1
    if current < 0xff then current.toUInt8 :: rest else current.toUInt8 :: incrementLoop rest

/-- `incrementIv`. -/
def incrementIv (iv : List UInt8) : List UInt8 := (incrementLoop iv.reverse).reverse

/-! ## Values -/

theorem digits_lt (l : List UInt8) : ∀ d ∈ l.map UInt8.toNat, d < 256 := by
  intro d hd
  obtain ⟨b, -, rfl⟩ := List.mem_map.1 hd
  exact b.toNat_lt

theorem counter_lt (iv : List UInt8) : counter iv < 256 ^ iv.length := by
  have h := Nat.ofDigits_lt_base_pow_length (by decide) (digits_lt iv.reverse)
  rwa [List.length_map, List.length_reverse] at h

/-- Bytes are determined by their number. -/
theorem counter_inj {iv iv' : List UInt8} (hlen : iv.length = iv'.length)
    (h : counter iv = counter iv') : iv = iv' := by
  have h1 := eq_of_ofDigits_eq (digits_lt iv.reverse) (digits_lt iv'.reverse)
    (by simpa using hlen) h
  exact List.reverse_injective ((List.map_injective_iff.2 fun _ _ => UInt8.toNat_inj.1) h1)

/-- The block of the bytes is the block of their number. -/
theorem blockOf_eq {iv : List UInt8} (hlen : iv.length = 16) :
    blockOf iv = counterBlock (counter iv) := by
  funext i
  have hi : 15 - i.val < (iv.reverse.map UInt8.toNat).length := by simp [hlen]; omega
  have h := getElem_eq_digit (digits_lt iv.reverse) hi
  rw [blockOf, counterBlock, counter, ← h, List.getElem_map, List.getElem_reverse,
    UInt8.ofNat_toNat, List.getD_eq_getElem _ _ (by omega)]
  congr 1
  omega

@[simp] theorem length_le4 (w : UInt32) : (le4 w).length = 4 := rfl

@[simp] theorem length_toBytes (w : Words) : w.toBytes.length = 16 := rfl

theorem map_toNat_le4 (w : UInt32) :
    (le4 w).map UInt8.toNat = (List.range 4).map (digit 256 w.toNat) := by
  rw [le4, List.map_map]
  refine List.map_congr_left fun k _ => ?_
  rw [Function.comp_apply, UInt8.toNat_ofNat']
  exact Nat.mod_eq_of_lt (digit_lt (by decide) _ _)

theorem ofDigits_le4 (w : UInt32) : Nat.ofDigits 256 ((le4 w).map UInt8.toNat) = w.toNat := by
  have hw := w.toNat_lt
  rw [map_toNat_le4]
  simp only [List.range_succ, List.range_zero, List.nil_append, List.cons_append, List.map_cons,
    List.map_nil, Nat.ofDigits_cons, Nat.ofDigits_nil, digit]
  omega

/-- Four bytes survive in a word. -/
theorem le4_ofLe {l : List UInt8} (hlen : l.length = 4) : le4 (ofLe l) = l := by
  have hval := Nat.ofDigits_lt_base_pow_length (by decide) (digits_lt l)
  rw [List.length_map, hlen] at hval
  have h1 : Nat.ofDigits 256 ((le4 (ofLe l)).map UInt8.toNat) =
      Nat.ofDigits 256 (l.map UInt8.toNat) := by
    rw [ofDigits_le4, ofLe, UInt32.toNat_ofNat']
    exact Nat.mod_eq_of_lt hval
  have h2 := eq_of_ofDigits_eq (digits_lt _) (digits_lt l) (by simp [hlen]) h1
  exact (List.map_injective_iff.2 fun _ _ => UInt8.toNat_inj.1) h2

theorem le4_bswap32 (w : UInt32) : le4 (bswap32 w) = (le4 w).reverse := le4_ofLe (by simp)

theorem toNat_bswap32 (w : UInt32) :
    Nat.ofDigits 256 ((le4 w).reverse.map UInt8.toNat) = (bswap32 w).toNat := by
  rw [← le4_bswap32, ofDigits_le4]

/-- `__bswap_32` undoes itself. -/
@[simp] theorem bswap32_bswap32 (w : UInt32) : bswap32 (bswap32 w) = w := by
  refine UInt32.toNat_inj.1 ?_
  rw [← toNat_bswap32, le4_bswap32, List.reverse_reverse, ofDigits_le4]

/-- The number in the words is that of their byte-swapped values, `word_0` most significant. -/
theorem counter_toBytes (w : Words) : counter w.toBytes =
    Nat.ofDigits (2 ^ 32) ([w.word3, w.word2, w.word1, w.word0].map fun x =>
      (bswap32 x).toNat) := by
  have h := ofDigits_flatMap (b := 256) (k := 4)
    (f := fun x : UInt32 => (le4 x).reverse.map UInt8.toNat) (fun x => rfl)
    [w.word3, w.word2, w.word1, w.word0]
  have hpow : (2 : Nat) ^ 32 = 256 ^ 4 := by norm_num
  simp only [toNat_bswap32] at h
  rw [counter, hpow, ← h]
  simp [Words.toBytes]

/-! ## Packing -/

theorem toNat_packWord (b : List UInt8) (k : Nat) : (packWord b k).toNat =
    Nat.ofDigits 256 ([b.getD k 0, b.getD (k + 1) 0, b.getD (k + 2) 0, b.getD (k + 3) 0].map
      UInt8.toNat) := by
  have h0 := (b.getD k 0).toNat_lt
  have h1 := (b.getD (k + 1) 0).toNat_lt
  have h2 := (b.getD (k + 2) 0).toNat_lt
  have h3 := (b.getD (k + 3) 0).toNat_lt
  simp only [packWord, UInt32.toNat_add, UInt32.toNat_mul, UInt8.toNat_toUInt32, List.map_cons,
    List.map_nil, Nat.ofDigits_cons, Nat.ofDigits_nil, UInt32.reduceToNat]
  omega

theorem le4_packWord (b : List UInt8) (k : Nat) :
    le4 (packWord b k) = [b.getD k 0, b.getD (k + 1) 0, b.getD (k + 2) 0, b.getD (k + 3) 0] := by
  have h1 := ofDigits_le4 (packWord b k)
  rw [toNat_packWord] at h1
  exact (List.map_injective_iff.2 fun _ _ => UInt8.toNat_inj.1)
    (eq_of_ofDigits_eq (digits_lt _) (digits_lt _) (by simp) h1)

/-- **A new cipher holds its sixteen bytes in its words.** -/
theorem toBytes_pack {b : List UInt8} (hlen : b.length = 16) : (Words.pack b).toBytes = b := by
  have h : b = (List.range 16).map fun k => b.getD k 0 := by
    refine List.ext_getElem (by simp [hlen]) fun k h1 h2 => ?_
    rw [List.getElem_map, List.getElem_range, List.getD_eq_getElem _ _ h1]
  rw [Words.pack, Words.toBytes]
  simp only [le4_packWord]
  exact h.symm

/-! ## Adding to the bytes -/

/-- No byte `0xff` of the addend `num` meets a carry, when it is added to the bytes of the list,
least significant first. -/
def CarrySafe : List UInt8 → Nat → Nat → Prop
  | [], _, _ => True
  | low :: rest, num, carry => ¬(num % 256 = 255 ∧ carry = 1) ∧
    CarrySafe rest (num / 256) ((low.toNat + num % 256 + carry) / 256)

instance decidableCarrySafe : ∀ (l : List UInt8) (num carry : Nat),
    Decidable (CarrySafe l num carry)
  | [], _, _ => inferInstanceAs (Decidable True)
  | low :: rest, num, carry =>
    have := decidableCarrySafe rest (num / 256) ((low.toNat + num % 256 + carry) / 256)
    inferInstanceAs (Decidable (_ ∧ _))

/-- A small addend has no byte `0xff` that a carry could meet. -/
theorem carrySafe_of_lt (l : List UInt8) :
    ∀ {num carry : Nat}, num < 255 → CarrySafe l num carry := by
  induction l with
  | nil => intros; trivial
  | cons low rest ih =>
    intro num carry h
    refine ⟨by omega, ih ?_⟩
    rw [Nat.div_eq_of_lt (by omega)]
    decide

theorem toNat_ofInt (n : Nat) : (UInt8.ofInt n).toNat = n % 256 := by
  have h : ((n : Int) % 2 ^ 8).toNat = n % 256 := by omega
  rw [UInt8.ofInt, h, UInt8.toNat_ofNat']
  exact Nat.mod_mod _ _

/-- The carry as the code infers it, and as it is. -/
theorem carry_eq (low : UInt8) (n : Nat) {c : UInt8} (hc : c.toNat ≤ 1)
    (hsafe : ¬(n % 256 = 255 ∧ c.toNat = 1)) :
    (if low + UInt8.ofInt n + c < low then (1 : UInt8) else 0).toNat =
      (low.toNat + n % 256 + c.toNat) / 256 := by
  have hlow := low.toNat_lt
  have hlt : low + UInt8.ofInt n + c < low ↔ 256 ≤ low.toNat + n % 256 + c.toNat := by
    rw [UInt8.lt_iff_toNat_lt, UInt8.toNat_add, UInt8.toNat_add, toNat_ofInt]
    omega
  by_cases h : 256 ≤ low.toNat + n % 256 + c.toNat
  · rw [if_pos (hlt.2 h)]
    have : (1 : UInt8).toNat = 1 := rfl
    omega
  · rw [if_neg (fun hx => h (hlt.1 hx))]
    have : (0 : UInt8).toNat = 0 := rfl
    omega

/-- The loop of `addIvOpenssl` is a pass of `ripple`. -/
theorem addIvLoop_eq (l : List UInt8) : ∀ {n : Nat} {c : UInt8}, c.toNat ≤ 1 →
    CarrySafe l n c.toNat →
    (addIvLoop l n c).map UInt8.toNat = ripple 256 (l.map UInt8.toNat) (n + c.toNat) := by
  induction l with
  | nil => intros; rfl
  | cons low rest ih =>
    intro n c hc hsafe
    obtain ⟨hhere, hrest⟩ := hsafe
    rw [addIvLoop]
    split
    · rename_i h
      have hn : n = 0 := by exact_mod_cast h.1
      rw [h.2, hn, UInt8.toNat_zero, Nat.add_zero, ripple_zero (digits_lt _)]
    · have hcarry := carry_eq low n hc hhere
      have hshift : (n : Int) >>> (8 : Nat) = ((n / 256 : Nat) : Int) := by
        rw [Int.shiftRight_eq_div_pow]
        norm_cast
      have hstep := ih (n := n / 256) (c := if low + UInt8.ofInt n + c < low then 1 else 0)
        (by split <;> decide) (by rw [hcarry]; exact hrest)
      rw [List.map_cons, List.map_cons, ripple, hshift, hstep, hcarry]
      congr 1
      · rw [UInt8.toNat_add, UInt8.toNat_add, toNat_ofInt]
        omega
      · congr 1
        omega

theorem length_addIvLoop (l : List UInt8) : ∀ (n : Int) (c : UInt8),
    (addIvLoop l n c).length = l.length := by
  induction l with
  | nil => intros; rfl
  | cons low rest ih =>
    intro n c
    rw [addIvLoop]
    split
    · rfl
    · rw [List.length_cons, ih, List.length_cons]

@[simp] theorem length_addIvOpenssl (iv : List UInt8) (num : UInt32) :
    (addIvOpenssl iv num).length = iv.length := by
  rw [addIvOpenssl, List.length_reverse, length_addIvLoop, List.length_reverse]

/-- **`addIvOpenssl` adds**, unless a byte `0xff` of the addend meets a carry. -/
theorem counter_addIvOpenssl (iv : List UInt8) {n : Nat} (hn : n < 2 ^ 31)
    (hsafe : CarrySafe iv.reverse n 0) :
    counter (addIvOpenssl iv (UInt32.ofNat n)) = (counter iv + n) % 256 ^ iv.length := by
  have hint : (UInt32.ofNat n).toBitVec.toInt = n := by
    have h1 : (UInt32.ofNat n).toBitVec.toNat = n := Nat.mod_eq_of_lt (by omega)
    rw [BitVec.toInt_eq_toNat_of_lt (by omega), h1]
  have h := addIvLoop_eq iv.reverse (n := n) (c := 0) (by decide) hsafe
  rw [counter, addIvOpenssl, List.reverse_reverse, hint, h, ofDigits_ripple (by decide),
    List.length_map, List.length_reverse]
  rfl

/-! ## Adding to the words -/

/-- A pass of the loop of `addIvCipher`: the word with its bytes swapped, and what is added. -/
structure Pass where
  orig : UInt32
  currentNum : UInt32
  carry : UInt32
  deriving DecidableEq, Repr

namespace Pass

variable {p : Pass}

def temp (p : Pass) : UInt32 := p.orig + p.currentNum + p.carry

/-- The carry that the pass finds for the next one. -/
def carryOut (p : Pass) : UInt32 := if p.temp < p.orig then 1 else 0

/-- The carry is a bit, and at most one of the two summands is not zero. -/
structure Regular (p : Pass) : Prop where
  bit : p.carry.toNat ≤ 1
  one : p.currentNum = 0 ∨ p.carry = 0

theorem carryOut_le (p : Pass) : p.carryOut.toNat ≤ 1 := by
  rw [carryOut]
  split <;> decide

/-- **No carry is lost or invented.** -/
theorem Regular.exact (h : p.Regular) :
    p.temp.toNat + 2 ^ 32 * p.carryOut.toNat =
      p.orig.toNat + p.currentNum.toNat + p.carry.toNat := by
  have hbit := h.bit
  have horig := p.orig.toNat_lt
  have hnum := p.currentNum.toNat_lt
  have htemp : p.temp.toNat = (p.orig.toNat + p.currentNum.toNat + p.carry.toNat) % 2 ^ 32 := by
    rw [temp, UInt32.toNat_add, UInt32.toNat_add, Nat.mod_add_mod]
  -- the summands together are below `2 ^ 32`, so that the sum wraps at most once
  have hsmall : p.currentNum.toNat + p.carry.toNat < 2 ^ 32 := by
    rcases h.one with h0 | h0
    · rw [h0, UInt32.toNat_zero]
      omega
    · rw [h0, UInt32.toNat_zero]
      omega
  rw [carryOut]
  split <;> rename_i hlt <;> rw [UInt32.lt_iff_toNat_lt] at hlt
  · rw [UInt32.toNat_one]
    omega
  · rw [UInt32.toNat_zero]
    omega

end Pass

/-- The passes that the loop of `addIvCipher` makes before it stops. -/
def passes : List UInt32 → UInt32 → UInt32 → List Pass
  | [], _, _ => []
  | current :: rest, currentNum, carry =>
    if currentNum = 0 ∧ carry = 0 then []
    else
      let p : Pass := ⟨bswap32 current, currentNum, carry⟩
      p :: passes rest 0 p.carryOut

/-- Every pass stores its sum, and the words that have no pass stay as they are. -/
theorem addWordLoop_passes (l : List UInt32) : ∀ num carry : UInt32,
    addWordLoop l num carry = (passes l num carry).map (fun p => bswap32 p.temp) ++
      l.drop (passes l num carry).length := by
  induction l with
  | nil => intros; rfl
  | cons w rest ih =>
    intro num carry
    rw [addWordLoop, passes]
    split
    · rfl
    · rw [List.map_cons, List.length_cons, List.drop_succ_cons, List.cons_append]
      exact congrArg _ (ih 0 (Pass.carryOut ⟨bswap32 w, num, carry⟩))

theorem passes_regular (l : List UInt32) : ∀ {num carry : UInt32}, carry.toNat ≤ 1 →
    (num = 0 ∨ carry = 0) → ∀ p ∈ passes l num carry, p.Regular := by
  induction l with
  | nil => intro num carry _ _ p hp; simp [passes] at hp
  | cons w rest ih =>
    intro num carry hcarry hone p hp
    rw [passes] at hp
    split at hp
    · simp at hp
    · rcases List.mem_cons.1 hp with rfl | hp
      · exact ⟨hcarry, hone⟩
      · exact ih (Pass.carryOut_le _) (Or.inl rfl) p hp

/-- The loop of `addIvCipher` is a pass of `ripple`. -/
theorem addWordLoop_eq (l : List UInt32) : ∀ num carry : UInt32, carry.toNat ≤ 1 →
    (num = 0 ∨ carry = 0) →
    (addWordLoop l num carry).map (fun x => (bswap32 x).toNat) =
      ripple (2 ^ 32) (l.map fun x => (bswap32 x).toNat) (num.toNat + carry.toNat) := by
  induction l with
  | nil => intros; rfl
  | cons w rest ih =>
    intro num carry hcarry hone
    rw [addWordLoop]
    split
    · rename_i h
      have hlt : ∀ d ∈ (w :: rest).map (fun x => (bswap32 x).toNat), d < 2 ^ 32 := by
        intro d hd
        obtain ⟨x, -, rfl⟩ := List.mem_map.1 hd
        exact (bswap32 x).toNat_lt
      rw [h.1, h.2, UInt32.toNat_zero, ripple_zero hlt]
    · -- what is stored and the carry are the remainder and the quotient of the exact sum
      set p : Pass := ⟨bswap32 w, num, carry⟩
      have hexact : p.temp.toNat + 2 ^ 32 * p.carryOut.toNat =
          (bswap32 w).toNat + num.toNat + carry.toNat := Pass.Regular.exact ⟨hcarry, hone⟩
      have htemp := p.temp.toNat_lt
      have hsum : ((bswap32 w).toNat + (num.toNat + carry.toNat)) % 2 ^ 32 = p.temp.toNat := by
        omega
      have hnext : ((bswap32 w).toNat + (num.toNat + carry.toNat)) / 2 ^ 32 =
          p.carryOut.toNat := by
        omega
      have hstep := ih 0 p.carryOut p.carryOut_le (Or.inl rfl)
      rw [UInt32.toNat_zero, Nat.zero_add] at hstep
      rw [List.map_cons, List.map_cons, ripple, hsum, hnext, ← hstep, bswap32_bswap32]
      rfl

theorem length_addWordLoop (l : List UInt32) : ∀ num carry : UInt32,
    (addWordLoop l num carry).length = l.length := by
  induction l with
  | nil => intros; rfl
  | cons w rest ih =>
    intro num carry
    rw [addWordLoop]
    split
    · rfl
    · rw [List.length_cons, ih, List.length_cons]

/-- The words in the order in which the loop of `addIvCipher` comes to them. -/
def Words.fromLast (w : Words) : List UInt32 := [w.word3, w.word2, w.word1, w.word0]

/-- The four words are those that the loop leaves. -/
theorem fromLast_addWords (w : Words) (num : UInt32) :
    (addWords w num).fromLast = addWordLoop w.fromLast num 0 := by
  have hlen := length_addWordLoop w.fromLast num 0
  rw [addWords]
  rcases hr : addWordLoop w.fromLast num 0 with
    _ | ⟨a, _ | ⟨b, _ | ⟨c, _ | ⟨d, _ | ⟨x, l⟩⟩⟩⟩⟩ <;> rw [hr] at hlen <;>
    simp [Words.fromLast] at hlen
  rw [Words.fromLast] at hr
  rw [hr]
  rfl

/-- **The words are added to without exception.** -/
theorem counter_addWords (w : Words) (num : UInt32) :
    counter (addWords w num).toBytes = (counter w.toBytes + num.toNat) % 256 ^ 16 := by
  have hpow : ((2 : Nat) ^ 32) ^ 4 = 256 ^ 16 := by norm_num
  have hloop := addWordLoop_eq w.fromLast num 0 (by decide) (Or.inr rfl)
  rw [← fromLast_addWords] at hloop
  have hval := ofDigits_ripple (b := 2 ^ 32) (by decide)
    (w.fromLast.map fun x => (bswap32 x).toNat) (num.toNat + 0)
  rw [UInt32.toNat_zero] at hloop
  rw [← hloop, List.length_map, Nat.add_zero] at hval
  rw [counter_toBytes, counter_toBytes, ← hpow]
  exact hval

/-! ## Incrementing -/

@[simp] theorem length_incrementLoop (l : List UInt8) : (incrementLoop l).length = l.length := by
  induction l with
  | nil => rfl
  | cons b rest ih =>
    rw [incrementLoop]
    split
    · rfl
    · rw [List.length_cons, ih, List.length_cons]

@[simp] theorem length_incrementIv (iv : List UInt8) : (incrementIv iv).length = iv.length := by
  rw [incrementIv, List.length_reverse, length_incrementLoop, List.length_reverse]

/-- The lowest byte of the number after `v` that is not zero is `0xff`, and it is not the last.
`incrementIv` goes on to the next byte there, as if this one had rolled over. -/
def Slips (v : Nat) : Prop := ∃ k, k < 15 ∧ (v + 1) % 256 ^ (k + 1) = 255 * 256 ^ k

instance (v : Nat) : Decidable (Slips v) := inferInstanceAs (Decidable (∃ k, k < 15 ∧ _))

/-- Only the low sixteen bytes matter. -/
theorem slips_mod (v : Nat) : Slips (v % 256 ^ 16) ↔ Slips v := by
  refine exists_congr fun k => and_congr_right fun hk => ?_
  have hdvd : 256 ^ (k + 1) ∣ 256 ^ 16 := Nat.pow_dvd_pow 256 (by omega)
  rw [Nat.add_mod, Nat.mod_mod_of_dvd _ hdvd, ← Nat.add_mod]

/-- The loop of `incrementIv`, byte by byte. -/
theorem incrementLoop_cons (b : UInt8) (rest : List UInt8) :
    incrementLoop (b :: rest) =
      UInt8.ofNat (b.toNat + 1) :: if b.toNat < 254 then rest else incrementLoop rest := by
  have hb := b.toNat_lt
  have hcurrent : (b.toUInt32 + 1).toNat = b.toNat + 1 := by
    rw [UInt32.toNat_add, UInt8.toNat_toUInt32]
    exact Nat.mod_eq_of_lt (by show b.toNat + 1 < 2 ^ 32; omega)
  have hbyte : (b.toUInt32 + 1).toUInt8 = UInt8.ofNat (b.toNat + 1) := by
    refine UInt8.toNat_inj.1 ?_
    rw [UInt32.toNat_toUInt8, hcurrent, UInt8.toNat_ofNat']
  have hlt : b.toUInt32 + 1 < 0xff ↔ b.toNat < 254 := by
    rw [UInt32.lt_iff_toNat_lt, hcurrent]
    exact Nat.succ_lt_succ_iff
  rw [incrementLoop, hbyte]
  by_cases h : b.toNat < 254
  · rw [if_pos (hlt.2 h), if_pos h]
  · rw [if_neg fun hx => h (hlt.1 hx), if_neg h]

/-- **The loop of `incrementIv` adds one** if and only if it does not go on too far: the byte that
it goes on to comes out one too large. -/
theorem ofDigits_incrementLoop_iff (l : List UInt8) :
    Nat.ofDigits 256 ((incrementLoop l).map UInt8.toNat) =
        (Nat.ofDigits 256 (l.map UInt8.toNat) + 1) % 256 ^ l.length ↔
      ∀ k, k + 1 < l.length →
        (Nat.ofDigits 256 (l.map UInt8.toNat) + 1) % 256 ^ (k + 1) ≠ 255 * 256 ^ k := by
  induction l with
  | nil => simp [incrementLoop]
  | cons b rest ih =>
    have hb := b.toNat_lt
    have hpow : 256 ^ (b :: rest).length = 256 * 256 ^ rest.length := Nat.pow_succ'
    rw [incrementLoop_cons, List.map_cons, List.map_cons, Nat.ofDigits_cons, Nat.ofDigits_cons,
      hpow, UInt8.toNat_ofNat', Nat.mod_mul]
    by_cases hstop : b.toNat < 254
    · -- the byte does not carry, and the number after it has a low byte other than `0` and `0xff`
      rw [if_pos hstop]
      have hrest := Nat.ofDigits_lt_base_pow_length (by decide) (digits_lt rest)
      rw [List.length_map] at hrest
      refine iff_of_true ?_ fun k hk hbad => ?_
      · rw [Nat.mod_eq_of_lt (a := (b.toNat + _ + 1) / 256) (by omega)]
        omega
      · have hlow := congrArg (· % 256) hbad
        rw [pow_succ'] at hlow
        simp only [Nat.mod_mul_right_mod] at hlow
        rcases k with - | k
        · omega
        · rw [pow_succ', Nat.mul_left_comm, Nat.mul_mod_right] at hlow
          omega
    rw [if_neg hstop]
    by_cases hroll : b.toNat = 255
    · have hsum : b.toNat + 256 * Nat.ofDigits 256 (rest.map UInt8.toNat) + 1 =
          256 * (Nat.ofDigits 256 (rest.map UInt8.toNat) + 1) := by omega
      have hnext : ∀ k, (256 * (Nat.ofDigits 256 (rest.map UInt8.toNat) + 1)) % 256 ^ (k + 2) =
          255 * 256 ^ (k + 1) ↔
          (Nat.ofDigits 256 (rest.map UInt8.toNat) + 1) % 256 ^ (k + 1) =
            255 * 256 ^ k := fun k => by
        rw [pow_succ' 256 (k + 1), Nat.mul_mod_mul_left, pow_succ' 256 k]
        omega
      rw [hsum, Nat.mul_mod_right, Nat.mul_div_right _ (by decide), hroll]
      constructor
      · rintro h (_ | k) hk hbad
        · rw [Nat.zero_add, pow_one, pow_zero, Nat.mul_mod_right] at hbad
          omega
        · exact ih.1 (by omega) k (Nat.lt_of_succ_lt_succ hk) ((hnext k).1 hbad)
      · intro h
        rw [ih.2 fun k hk hbad => h (k + 1) (Nat.succ_lt_succ hk) ((hnext k).2 hbad)]
    · -- the byte becomes `0xff`: it has not rolled over, but the loop goes on
      cases rest with
      | nil =>
        refine iff_of_true ?_ fun k hk => absurd hk (by simp)
        simp only [incrementLoop, List.map_nil, Nat.ofDigits_nil, List.length_nil, pow_zero,
          Nat.mod_one]
      | cons next rest =>
        refine iff_of_false (fun h => ?_) fun h => h 0 (by simp) ?_
        · rw [incrementLoop_cons, List.map_cons, List.map_cons, Nat.ofDigits_cons,
            Nat.ofDigits_cons, UInt8.toNat_ofNat', List.length_cons,
            Nat.pow_succ' (n := rest.length), Nat.mod_mul] at h
          omega
        · rw [Nat.zero_add, pow_one, pow_zero]
          omega

/-- **`incrementIv` adds one**, unless it goes on too far. -/
theorem counter_incrementIv {iv : List UInt8} (hlen : iv.length = 16) (h : ¬Slips (counter iv)) :
    counter (incrementIv iv) = (counter iv + 1) % 256 ^ 16 := by
  have h1 := (ofDigits_incrementLoop_iff iv.reverse).2 fun k hk hbad =>
    h ⟨k, by rw [List.length_reverse, hlen] at hk; omega, hbad⟩
  rw [List.length_reverse, hlen] at h1
  rw [counter, incrementIv, List.reverse_reverse, h1, counter]

/-- **And so it counts.** -/
theorem counter_iterate {iv : List UInt8} (hlen : iv.length = 16) {j : Nat}
    (h : ∀ i, i < j → ¬Slips (counter iv + i)) :
    (incrementIv^[j] iv).length = 16 ∧
      counter (incrementIv^[j] iv) = (counter iv + j) % 256 ^ 16 := by
  induction j with
  | zero =>
    have hlt := counter_lt iv
    rw [hlen] at hlt
    exact ⟨hlen, (Nat.mod_eq_of_lt hlt).symm⟩
  | succ j ih =>
    obtain ⟨hlen', hvalue⟩ := ih fun i hi => h i (Nat.lt_succ_of_lt hi)
    have hslips : ¬Slips (counter (incrementIv^[j] iv)) := by
      rw [hvalue, slips_mod]
      exact h j (Nat.lt_succ_self j)
    rw [Function.iterate_succ_apply']
    refine ⟨by rw [length_incrementIv, hlen'], ?_⟩
    rw [counter_incrementIv hlen' hslips, hvalue, Nat.mod_add_mod, Nat.add_assoc]

/-! ## Adding nothing -/

theorem addIvLoop_zero : ∀ l : List UInt8, addIvLoop l 0 0 = l
  | [] => rfl
  | low :: rest => by rw [addIvLoop, if_pos ⟨rfl, rfl⟩]

theorem addIvOpenssl_zero (iv : List UInt8) : addIvOpenssl iv 0 = iv := by
  rw [addIvOpenssl]
  exact (congrArg List.reverse (addIvLoop_zero iv.reverse)).trans iv.reverse_reverse

theorem addWords_zero (w : Words) : addWords w 0 = w := by
  rw [addWords, addWordLoop, if_pos ⟨rfl, rfl⟩]
  rfl

/-! ## The two copies -/

/-- The two copies are the same number, in the same bytes. -/
def InStep (iv : List UInt8) (w : Words) : Prop := iv = w.toBytes

instance (iv : List UInt8) (w : Words) : Decidable (InStep iv w) :=
  inferInstanceAs (Decidable (_ = _))

theorem InStep.length {iv : List UInt8} {w : Words} (h : InStep iv w) : iv.length = 16 := by
  rw [h, length_toBytes]

/-- **The copies stay in step**, unless the bytes miss a carry. -/
theorem InStep.add {iv : List UInt8} {w : Words} {n : Nat} (h : InStep iv w) (hn : n < 2 ^ 31)
    (hsafe : CarrySafe iv.reverse n 0) :
    InStep (addIvOpenssl iv (UInt32.ofNat n)) (addWords w (UInt32.ofNat n)) := by
  refine counter_inj (by simp [h.length]) ?_
  have hmod : (UInt32.ofNat n).toNat = n := by
    rw [UInt32.toNat_ofNat']
    exact Nat.mod_eq_of_lt (by omega)
  rw [counter_addIvOpenssl _ hn hsafe, counter_addWords, hmod, h.length, h]

end Zedboard
