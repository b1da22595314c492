import Mathlib.Data.Nat.NthRoot.Defs
import Mathlib.Data.UInt
import Mathlib.Tactic.Ring
import Zedboard.Ed25519.Sha512

/-!
# The standard and the code, block by block

`Sha512` is the hash as the standard describes it: every round renames the eight words, the schedule
is a recurrence, rotations are rotations, the constants are roots of primes, and a message is padded
to full blocks.

The code keeps the words where they are and renames the places instead, eight rounds at a time; it
has cheaper formulas for the two choice functions; and it makes words out of shifted bytes.
`sha512Compress_eq` says that none of this can be seen.
-/

set_option autoImplicit false

namespace Zedboard

/-! ## The standard -/

namespace Sha512

def rotr (n : Nat) (x : UInt64) : UInt64 := ⟨x.toBitVec.rotateRight n⟩

def ch (x y z : UInt64) : UInt64 := (x &&& y) ^^^ (~~~x &&& z)

def maj (x y z : UInt64) : UInt64 := (x &&& y) ^^^ (x &&& z) ^^^ (y &&& z)

def bigSigma0 (x : UInt64) : UInt64 := rotr 28 x ^^^ rotr 34 x ^^^ rotr 39 x

def bigSigma1 (x : UInt64) : UInt64 := rotr 14 x ^^^ rotr 18 x ^^^ rotr 41 x

def smallSigma0 (x : UInt64) : UInt64 := rotr 1 x ^^^ rotr 8 x ^^^ (x >>> 7)

def smallSigma1 (x : UInt64) : UInt64 := rotr 19 x ^^^ rotr 61 x ^^^ (x >>> 6)

/-- A number from its bytes, most significant first. -/
def ofBytes (l : List UInt8) : Nat := l.foldl (fun v b => v * 256 + b.toNat) 0

/-- The lowest `k` bytes of a number, most significant first. -/
def toBytes : Nat → Nat → List UInt8
  | 0, _ => []
  | k + 1, v => toBytes k (v / 256) ++ [UInt8.ofNat v]

/-- The word `i` of a block. -/
def word (block : List UInt8) (i : Nat) : UInt64 :=
  UInt64.ofNat (ofBytes ((block.drop (8 * i)).take 8))

/-- The message schedule. -/
def schedule (block : List UInt8) (t : Nat) : UInt64 :=
  if t < 16 then word block t
  else
    smallSigma1 (schedule block (t - 2)) + schedule block (t - 7) +
      smallSigma0 (schedule block (t - 15)) + schedule block (t - 16)

/-- The eight working variables, `a` to `h`. -/
structure Vars where
  a : UInt64
  b : UInt64
  c : UInt64
  d : UInt64
  e : UInt64
  f : UInt64
  g : UInt64
  h : UInt64

/-- One round, with its constant and its word of the schedule. -/
def Vars.round (v : Vars) (k w : UInt64) : Vars :=
  let t1 := v.h + bigSigma1 v.e + ch v.e v.f v.g + k + w
  let t2 := bigSigma0 v.a + maj v.a v.b v.c
  ⟨t1 + t2, v.a, v.b, v.c, v.d + t1, v.e, v.f, v.g⟩

def Vars.toVector (v : Vars) : Vector UInt64 8 := #v[v.a, v.b, v.c, v.d, v.e, v.f, v.g, v.h]

def Vars.ofVector (s : Vector UInt64 8) : Vars := ⟨s[0], s[1], s[2], s[3], s[4], s[5], s[6], s[7]⟩

/-- The first eighty primes. -/
def primes : List Nat :=
  (List.range' 2 408).filter fun n => (List.range' 2 (n - 2)).all fun d => n % d != 0

/-- The constants of the rounds: the first 64 bits of the fractional parts of the cube roots of the
first eighty primes. -/
def constants : List UInt64 := primes.map fun p => UInt64.ofNat (Nat.nthRoot 3 (p * 2 ^ 192))

/-- The compression function. -/
def compress (s : Vector UInt64 8) (block : List UInt8) : Vector UInt64 8 :=
  s.zipWith (· + ·) ((List.range 80).foldl
    (fun v t => v.round (constants.getD t 0) (schedule block t)) (Vars.ofVector s)).toVector

/-- The initial state. -/
def initial : Vector UInt64 8 :=
  #[0x6a09e667f3bcc908, 0xbb67ae8584caa73b, 0x3c6ef372fe94f82b, 0xa54ff53a5f1d36f1,
    0x510e527fade682d1, 0x9b05688c2b3e6c1f, 0x1f83d9abfb41bd6b, 0x5be0cd19137e2179].toVector

/-- The padding of a message of `len` bytes: a bit `1`, zeros, and the number of bits. -/
def padding (len : Nat) : List UInt8 :=
  0x80 :: (List.replicate ((239 - len % 128) % 128) 0 ++ toBytes 16 (8 * len))

/-- The hash of a message. -/
def digest (m : List UInt8) : List UInt8 :=
  (chain compress 128 initial (m ++ padding m.length)).toList.flatMap fun x => toBytes 8 x.toNat

end Sha512

/-! ## Words -/

namespace Sha512

@[simp] theorem length_toBytes : ∀ k v : Nat, (toBytes k v).length = k
  | 0, _ => rfl
  | k + 1, v => by rw [toBytes, List.length_append, length_toBytes k, List.length_singleton]

theorem toBytes_add (j : Nat) : ∀ k v : Nat,
    toBytes (j + k) v = toBytes j (v / 256 ^ k) ++ toBytes k v
  | 0, v => by rw [pow_zero, Nat.div_one, toBytes, List.append_nil, Nat.add_zero]
  | k + 1, v => by
    rw [← Nat.add_assoc, toBytes, toBytes_add j k, toBytes, List.append_assoc,
      Nat.div_div_eq_div_mul, pow_succ']

theorem toBytes_zero : ∀ k : Nat, toBytes k 0 = List.replicate k 0
  | 0 => rfl
  | k + 1 => by
    rw [toBytes, Nat.zero_div, toBytes_zero k, List.replicate_succ']
    rfl

end Sha512

open Sha512

/-- The next byte of a word that `LOAD64H` puts together. -/
theorem toNat_or_shift {acc : UInt64} {v k : Nat} {b : UInt8} (hk : k + 8 ≤ 64)
    (hacc : acc.toNat = v * 2 ^ (k + 8)) :
    (acc ||| b.toUInt64 <<< UInt64.ofNat k).toNat = (v * 256 + b.toNat) * 2 ^ k := by
  have hb : b.toNat < 2 ^ 8 := b.toNat_lt
  have hlt : b.toNat * 2 ^ k < 2 ^ (k + 8) := by
    rw [pow_add, Nat.mul_comm]
    exact Nat.mul_lt_mul_of_pos_left hb (Nat.two_pow_pos k)
  have hle : 2 ^ (k + 8) ≤ 2 ^ 64 := Nat.pow_le_pow_right (by decide) hk
  have hmod : k % 2 ^ 64 % 64 = k := by
    rw [Nat.mod_eq_of_lt (Nat.lt_of_lt_of_le (show k < 64 by omega) (by decide)),
      Nat.mod_eq_of_lt (by omega)]
  have hshift : (b.toUInt64 <<< UInt64.ofNat k).toNat = b.toNat * 2 ^ k := by
    rw [UInt64.toNat_shiftLeft, UInt64.toNat_ofNat', hmod, Nat.shiftLeft_eq, UInt8.toNat_toUInt64,
      Nat.mod_eq_of_lt (by omega)]
  rw [UInt64.toNat_or, hacc, hshift, Nat.mul_comm v, ← Nat.two_pow_add_eq_or_of_lt hlt, pow_add]
  ring

/-- `LOAD64H` loads a word of the block. -/
theorem load64h_eq {block : List UInt8} {i : Nat} (h : 8 * i + 8 ≤ block.length) :
    load64h block (8 * i) = word block i := by
  have hbytes : (block.drop (8 * i)).take 8 = (List.range 8).map fun j => block.getD (8 * i + j) 0 := by
    refine List.ext_getElem (by simp; omega) fun j h1 h2 => ?_
    rw [List.length_map, List.length_range] at h2
    simp [List.getElem?_eq_getElem (show 8 * i + j < block.length by omega)]
  have h0 := toNat_or_shift (v := 0) (k := 56) (b := block.getD (8 * i) 0) (by decide)
    (show (0 : UInt64).toNat = 0 * 2 ^ (56 + 8) by decide)
  have h1 := toNat_or_shift (k := 48) (b := block.getD (8 * i + 1) 0) (by decide) h0
  have h2 := toNat_or_shift (k := 40) (b := block.getD (8 * i + 2) 0) (by decide) h1
  have h3 := toNat_or_shift (k := 32) (b := block.getD (8 * i + 3) 0) (by decide) h2
  have h4 := toNat_or_shift (k := 24) (b := block.getD (8 * i + 4) 0) (by decide) h3
  have h5 := toNat_or_shift (k := 16) (b := block.getD (8 * i + 5) 0) (by decide) h4
  have h6 := toNat_or_shift (k := 8) (b := block.getD (8 * i + 6) 0) (by decide) h5
  have h7 := toNat_or_shift (k := 0) (b := block.getD (8 * i + 7) 0) (by decide) h6
  have hload : (load64h block (8 * i)).toNat = ofBytes ((block.drop (8 * i)).take 8) := by
    rw [hbytes]
    simpa [load64h, ofBytes, List.range_succ] using h7
  rw [word, ← hload, UInt64.ofNat_toNat]

theorem toUInt8_shift (x : UInt64) {k : Nat} (hk : k < 64) :
    ((x >>> UInt64.ofNat k) &&& 255).toUInt8 = UInt8.ofNat (x.toNat / 2 ^ k) := by
  have hmod : k % 2 ^ 64 % 64 = k := by
    rw [Nat.mod_eq_of_lt (Nat.lt_of_lt_of_le hk (by decide)), Nat.mod_eq_of_lt hk]
  have hand : (x.toNat / 2 ^ k) &&& (255 : UInt64).toNat = x.toNat / 2 ^ k % 256 :=
    Nat.and_two_pow_sub_one_eq_mod _ 8
  refine UInt8.toNat_inj.1 ?_
  rw [UInt64.toNat_toUInt8, UInt64.toNat_and, UInt64.toNat_shiftRight, UInt64.toNat_ofNat', hmod,
    Nat.shiftRight_eq_div_pow, hand, UInt8.toNat_ofNat', Nat.mod_mod]

/-- `STORE64H` stores the bytes of a word, most significant first. -/
theorem store64h_eq (x : UInt64) : store64h x = toBytes 8 x.toNat := by
  have h := fun k (hk : k < 64) => toUInt8_shift x hk
  have h0 : (x &&& 255).toUInt8 = UInt8.ofNat x.toNat := by
    have h0 := h 0 (by decide)
    rwa [pow_zero, Nat.div_one, show x >>> UInt64.ofNat 0 = x from UInt64.shiftRight_zero] at h0
  simp only [toBytes, Nat.div_div_eq_div_mul, List.nil_append, List.cons_append]
  rw [store64h, h0]
  exact congrArg₂ _ (h 56 (by decide)) <| congrArg₂ _ (h 48 (by decide)) <|
    congrArg₂ _ (h 40 (by decide)) <| congrArg₂ _ (h 32 (by decide)) <|
    congrArg₂ _ (h 24 (by decide)) <| congrArg₂ _ (h 16 (by decide)) <|
    congrArg₂ _ (h 8 (by decide)) rfl

/-! ## Rounds -/

theorem chMacro_eq (x y z : UInt64) : chMacro x y z = ch x y z := by
  refine UInt64.toBitVec_inj.1 (BitVec.eq_of_getLsbD_eq fun i hi => ?_)
  simp only [chMacro, ch, UInt64.toBitVec_xor, UInt64.toBitVec_and, UInt64.toBitVec_not,
    BitVec.getLsbD_xor, BitVec.getLsbD_and, BitVec.getLsbD_not, hi, decide_true, Bool.true_and]
  cases x.toBitVec.getLsbD i <;> cases y.toBitVec.getLsbD i <;> cases z.toBitVec.getLsbD i <;> rfl

theorem majMacro_eq (x y z : UInt64) : majMacro x y z = maj x y z := by
  refine UInt64.toBitVec_inj.1 (BitVec.eq_of_getLsbD_eq fun i hi => ?_)
  simp only [majMacro, maj, UInt64.toBitVec_xor, UInt64.toBitVec_and, UInt64.toBitVec_or,
    BitVec.getLsbD_xor, BitVec.getLsbD_and, BitVec.getLsbD_or]
  cases x.toBitVec.getLsbD i <;> cases y.toBitVec.getLsbD i <;> cases z.toBitVec.getLsbD i <;> rfl

/-- `ROR64c` rotates, by every number of places that it is used with. -/
theorem ror64c_eq {n : Nat} (h0 : 0 < n) (hn : n < 64) (x : UInt64) :
    ror64c x (UInt64.ofNat n) = rotr n x := by
  have hand : UInt64.ofNat n &&& 63 = UInt64.ofNat n := by
    refine UInt64.toNat_inj.1 ?_
    rw [UInt64.toNat_and, UInt64.toNat_ofNat']
    exact (Nat.and_two_pow_sub_one_eq_mod _ 6).trans (by omega)
  refine UInt64.toBitVec_inj.1 ?_
  rw [ror64c, hand, rotr, BitVec.rotateRight_eq_rotateRightAux_of_lt hn, BitVec.rotateRightAux,
    UInt64.toBitVec_or, UInt64.toBitVec_shiftRight, UInt64.toBitVec_shiftLeft]
  have hright : ((UInt64.ofNat n).toBitVec % 64).toNat = n := by
    rw [BitVec.toNat_umod, UInt64.toNat_toBitVec, UInt64.toNat_ofNat']
    exact (show n % 2 ^ 64 % 64 = n by omega)
  have hleft : ((64 - UInt64.ofNat n).toBitVec % 64).toNat = 64 - n := by
    rw [BitVec.toNat_umod, UInt64.toNat_toBitVec, UInt64.toNat_sub, UInt64.toNat_ofNat']
    exact (show (2 ^ 64 - n % 2 ^ 64 + 64) % 2 ^ 64 % 64 = 64 - n by omega)
  rw [BitVec.ushiftRight_eq', BitVec.shiftLeft_eq', hright, hleft]

theorem sigma0_eq (x : UInt64) : sigma0 x = bigSigma0 x :=
  congrArg₂ _ (congrArg₂ _ (ror64c_eq (by decide) (by decide) x)
    (ror64c_eq (by decide) (by decide) x)) (ror64c_eq (by decide) (by decide) x)

theorem sigma1_eq (x : UInt64) : sigma1 x = bigSigma1 x :=
  congrArg₂ _ (congrArg₂ _ (ror64c_eq (by decide) (by decide) x)
    (ror64c_eq (by decide) (by decide) x)) (ror64c_eq (by decide) (by decide) x)

theorem gamma0_eq (x : UInt64) : gamma0 x = smallSigma0 x :=
  congrArg (· ^^^ _) (congrArg₂ _ (ror64c_eq (by decide) (by decide) x)
    (ror64c_eq (by decide) (by decide) x))

theorem gamma1_eq (x : UInt64) : gamma1 x = smallSigma1 x :=
  congrArg (· ^^^ _) (congrArg₂ _ (ror64c_eq (by decide) (by decide) x)
    (ror64c_eq (by decide) (by decide) x))

/-- The working variables, when `a` to `h` are the names of these places. -/
def Sha512.Vars.ofPlaces (s : Vector UInt64 8) (a b c d e f g h : Fin 8) : Vars :=
  ⟨s.get a, s.get b, s.get c, s.get d, s.get e, s.get f, s.get g, s.get h⟩

/-- **One round in place** is a round of the standard, when the names move on by one. -/
theorem ofPlaces_rnd (s : Vector UInt64 8) {a b c d e f g h : Fin 8}
    (hnodup : [a, b, c, d, e, f, g, h].Nodup) (k w : UInt64) :
    Vars.ofPlaces (rnd s a b c d e f g h k w) h a b c d e f g =
      (Vars.ofPlaces s a b c d e f g h).round k w := by
  simp only [List.nodup_cons, List.mem_cons, List.not_mem_nil, or_false, not_or] at hnodup
  obtain ⟨⟨-, -, had, -, -, -, hah⟩, ⟨-, hbd, -, -, -, hbh⟩, ⟨hcd, -, -, -, hch⟩,
    ⟨hde, hdf, hdg, hdh⟩, ⟨-, -, heh⟩, ⟨-, hfh⟩, hgh, -⟩ := hnodup
  -- only the places `d` and `h` are written
  have hget : ∀ i : Fin 8, (rnd s a b c d e f g h k w).get i =
      if h = i then s[h] + sigma1 s[e] + chMacro s[e] s[f] s[g] + k + w +
          (sigma0 s[a] + majMacro s[a] s[b] s[c])
      else if d = i then s[d] + (s[h] + sigma1 s[e] + chMacro s[e] s[f] s[g] + k + w)
      else s[i] := by
    intro i
    change (rnd s a b c d e f g h k w)[i] = _
    simp only [rnd, Fin.getElem_fin, Vector.getElem_set, Fin.ext_iff]
  rw [Vars.ofPlaces, hget, hget, hget, hget, hget, hget, hget, hget, if_pos rfl,
    if_neg (Ne.symm hah), if_neg (Ne.symm had), if_neg (Ne.symm hbh), if_neg (Ne.symm hbd),
    if_neg (Ne.symm hch), if_neg (Ne.symm hcd), if_neg (Ne.symm hdh), if_pos rfl,
    if_neg (Ne.symm heh), if_neg hde, if_neg (Ne.symm hfh), if_neg hdf, if_neg (Ne.symm hgh),
    if_neg hdg, sigma0_eq, sigma1_eq, chMacro_eq, majMacro_eq]
  rfl

/-- The array `K` has the constants of the standard. -/
theorem sha512K_eq : sha512K = constants := by decide +kernel

/-- Eight rounds in place are eight rounds, and the names are back. -/
theorem ofVector_rounds8 (w : List UInt64) (s : Vector UInt64 8) (i : Nat) :
    Vars.ofVector (rounds8 w s i) = (List.range 8).foldl
      (fun v j => v.round (constants.getD (i + j) 0) (w.getD (i + j) 0)) (Vars.ofVector s) := by
  simp only [List.range_succ, List.range_zero, List.foldl_append, List.foldl_cons, List.foldl_nil,
    List.nil_append]
  change Vars.ofPlaces (rounds8 w s i) 0 1 2 3 4 5 6 7 = _
  rw [rounds8, ofPlaces_rnd _ (by decide), ofPlaces_rnd _ (by decide), ofPlaces_rnd _ (by decide),
    ofPlaces_rnd _ (by decide), ofPlaces_rnd _ (by decide), ofPlaces_rnd _ (by decide),
    ofPlaces_rnd _ (by decide), ofPlaces_rnd _ (by decide), sha512K_eq]
  rfl

/-- All rounds. -/
theorem ofVector_rounds (w : List UInt64) (s : Vector UInt64 8) (n : Nat) :
    Vars.ofVector ((List.range n).foldl (fun s r => rounds8 w s (8 * r)) s) =
      (List.range (8 * n)).foldl
        (fun v t => v.round (constants.getD t 0) (w.getD t 0)) (Vars.ofVector s) := by
  induction n with
  | zero => rfl
  | succ n ih =>
    rw [List.range_succ, List.foldl_append, List.foldl_cons, List.foldl_nil, ofVector_rounds8, ih,
      Nat.mul_succ, List.range_add, List.foldl_append, List.foldl_map]

/-! ## The schedule -/

/-- The words that the loop has filled are words of the schedule. -/
def Scheduled (block : List UInt8) (w : List UInt64) : Prop :=
  ∀ t, t < w.length → w.getD t 0 = schedule block t

theorem Scheduled.next {block : List UInt8} {w : List UInt64} (h : Scheduled block w)
    (hlen : 16 ≤ w.length) : Scheduled block (w ++ [nextW w w.length]) := by
  intro t ht
  rcases Nat.lt_or_ge t w.length with hlt | hge
  · rw [← h t hlt, List.getD_eq_getElem?_getD, List.getElem?_append_left hlt,
      List.getD_eq_getElem?_getD]
  · have ht' : t = w.length := by
      rw [List.length_append, List.length_singleton] at ht
      omega
    subst ht'
    rw [schedule, if_neg (by omega), ← h _ (by omega), ← h _ (by omega), ← h _ (by omega),
      ← h _ (by omega), ← gamma0_eq, ← gamma1_eq, List.getD_eq_getElem?_getD,
      List.getElem?_concat_length]
    rfl

theorem Scheduled.fillW {block : List UInt8} : ∀ (n : Nat) {w : List UInt64},
    Scheduled block w → 16 ≤ w.length →
      Scheduled block (fillW n w) ∧ (fillW n w).length = w.length + n
  | 0, _, h, _ => ⟨h, rfl⟩
  | n + 1, w, h, hlen => by
    have hlen' : (w ++ [nextW w w.length]).length = w.length + 1 := List.length_append
    have ih := Scheduled.fillW n (h.next hlen) (by omega)
    rw [Zedboard.fillW, ih.2, hlen']
    exact ⟨ih.1, by omega⟩

theorem scheduled_scheduleW {block : List UInt8} (h : 128 ≤ block.length) :
    Scheduled block (scheduleW block) ∧ (scheduleW block).length = 80 := by
  have hlen : ((List.range 16).map fun i => load64h block (8 * i)).length = 16 := by simp
  have hload : Scheduled block ((List.range 16).map fun i => load64h block (8 * i)) := by
    intro t ht
    rw [hlen] at ht
    rw [schedule, if_pos ht, ← load64h_eq (by omega)]
    simp [ht]
  have hfill := hload.fillW 64 (by omega)
  rw [hlen] at hfill
  exact hfill

/-- **The compression function** is the one of the standard. -/
theorem sha512Compress_eq (s : Vector UInt64 8) {block : List UInt8} (h : 128 ≤ block.length) :
    sha512Compress s block = Sha512.compress s block := by
  obtain ⟨hw, hlen⟩ := scheduled_scheduleW h
  have hback : ∀ v : Vector UInt64 8, (Vars.ofVector v).toVector = v := by
    intro v
    refine Vector.ext fun i hi => ?_
    match i, hi with
    | 0, _ | 1, _ | 2, _ | 3, _ | 4, _ | 5, _ | 6, _ | 7, _ => rfl
  have hrounds := ofVector_rounds (scheduleW block) s 10
  have hwords : (List.range (8 * 10)).foldl
      (fun v t => v.round (constants.getD t 0) ((scheduleW block).getD t 0)) (Vars.ofVector s) =
      (List.range 80).foldl (fun v t => v.round (constants.getD t 0) (schedule block t))
        (Vars.ofVector s) := by
    refine List.foldl_ext _ _ _ fun v t ht => ?_
    rw [hw t (by rw [hlen]; exact List.mem_range.1 ht)]
  rw [sha512Compress, Sha512.compress, ← hwords, ← hrounds, hback]

/-- The hash of the three letters `abc`. -/
example : digest [0x61, 0x62, 0x63] = toBytes 64
    (0xddaf35a193617abacc417349ae20413112e6fa4e89a97ea20a9eeee64b55d39a * 2 ^ 256 +
      0x2192992a274fc1a836ba3c23a3feebbd454d4423643ce80e2a9ac94fa54ca49f) := by
  have hlen : ([0x61, 0x62, 0x63] ++ padding 3).length = 128 := by simp [padding]
  have hblock : chain Sha512.compress 128 initial ([0x61, 0x62, 0x63] ++ padding 3) =
      sha512Compress initial ([0x61, 0x62, 0x63] ++ padding 3) := by
    rw [sha512Compress_eq _ hlen.ge, ← List.append_nil ([0x61, 0x62, 0x63] ++ padding 3),
      chain_block (by decide) hlen, chain_of_lt (by decide), List.append_nil]
  show (chain Sha512.compress 128 initial ([0x61, 0x62, 0x63] ++ padding 3)).toList.flatMap _ = _
  rw [hblock]
  decide +kernel

end Zedboard
