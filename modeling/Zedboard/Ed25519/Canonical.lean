import Zedboard.Ed25519.Field

/-!
# Canonical forms

`freeze` subtracts the modulus from a number between it and `2 ^ 255`, and leaves all others as they
are (`value_freeze`).  That is the residue as long as the number is below `2 ^ 255`, as after
`add`, `sub`, `neg` and `unpack`; after `mul` it may be larger, and then `freeze` does nothing.

So the functions that look at a number as a whole are right for exactly the numbers below `2 ^ 255`:
`pack` (`pack_iff`), `getparity` (`getparity_iff`) and, as long as neither or both of its arguments
are, `iseqVartime` (`iseqVartime_iff`).  Only `iszero` is always right (`iszero_eq`).

A product is below `2 ^ 255` unless its residue is one of a few small ones (`Clear`).
-/

set_option autoImplicit false

namespace Zedboard
namespace Fe25519

/-! ## Comparisons of words -/

theorem equal_eq {a b : UInt32} (ha : a.toNat < 2 ^ 16) (hb : b.toNat < 2 ^ 16) :
    equal a b = if a = b then 1 else 0 := by
  by_cases hab : a = b
  · rw [if_pos hab, hab, equal, UInt32.xor_self]
    decide
  · have hne : a ^^^ b ≠ 0 := fun h => hab (UInt32.xor_eq_zero_iff.1 h)
    have hpos : 0 < (a ^^^ b).toNat := Nat.pos_of_ne_zero fun h => hne (UInt32.toNat_inj.1 h)
    have hlt : (a ^^^ b).toNat < 2 ^ 16 := by
      rw [UInt32.toNat_xor]
      exact Nat.xor_lt_two_pow ha hb
    have hsub : ((a ^^^ b) - 1).toNat = (a ^^^ b).toNat - 1 := UInt32.toNat_sub_of_le _ 1 hpos
    rw [if_neg hab, equal]
    refine UInt32.toNat_inj.1 ?_
    rw [UInt32.toNat_shiftRight, hsub]
    exact (Nat.shiftRight_eq_div_pow _ 31).trans (Nat.div_eq_of_lt (by omega))

theorem ge_eq {a b : UInt32} (ha : a.toNat < 2 ^ 16) (hb : b.toNat < 2 ^ 16) :
    ge a b = if b.toNat ≤ a.toNat then 1 else 0 := by
  by_cases hab : b.toNat ≤ a.toNat
  · have hshift : (a - b) >>> 31 = 0 := by
      refine UInt32.toNat_inj.1 ?_
      rw [UInt32.toNat_shiftRight, UInt32.toNat_sub_of_le _ _ hab]
      exact (Nat.shiftRight_eq_div_pow _ 31).trans (Nat.div_eq_of_lt (by omega))
    rw [if_pos hab, ge, hshift]
    decide
  · have hshift : (a - b) >>> 31 = 1 := by
      refine UInt32.toNat_inj.1 ?_
      rw [UInt32.toNat_shiftRight, UInt32.toNat_sub]
      exact (Nat.shiftRight_eq_div_pow _ 31).trans (show _ / 2 ^ 31 = 1 by omega)
    rw [if_neg hab, ge, hshift]
    decide

theorem and_bit (P Q : Prop) [Decidable P] [Decidable Q] :
    ((if P then 1 else 0 : UInt32) &&& if Q then 1 else 0) = if P ∧ Q then 1 else 0 := by
  by_cases hP : P <;> by_cases hQ : Q <;> simp [hP, hQ]

/-- A chain of comparisons. -/
theorem foldl_and_bit {α : Type*} {f : α → UInt32} {Q : α → Prop} [DecidablePred Q]
    (l : List α) (hf : ∀ k ∈ l, f k = if Q k then 1 else 0) : ∀ (P : Prop) [Decidable P],
      l.foldl (fun m k => m &&& f k) (if P then 1 else 0) =
        if P ∧ ∀ k ∈ l, Q k then 1 else 0 := by
  induction l with
  | nil => intro P _; simp
  | cons k l ih =>
    intro P _
    rw [List.foldl_cons, hf k (by simp), and_bit,
      ih fun j hj => hf j (List.mem_cons_of_mem k hj)]
    simp only [List.forall_mem_cons, and_assoc]

/-! ## `freeze` -/

theorem Loose.word_lt {x : Fe25519} (h : Loose x) (k : Nat) : (x.v.getD k 0).toNat < 256 := by
  have hmax : ∀ k < 32, looseWords.getD k 0 < 256 := by decide
  rw [toNat_getD]
  rcases Nat.lt_or_ge k 32 with hk | hk
  · exact Nat.lt_of_le_of_lt (h.le.getD k) (hmax k hk)
  · rw [List.getD_eq_getElem?_getD, List.getElem?_eq_none (by rw [length_nats]; exact hk)]
    decide

theorem Loose.digits_lt {x : Fe25519} (h : Loose x) : ∀ d ∈ nats x.v, d < 256 := by
  intro d hd
  obtain ⟨k, hk, rfl⟩ := List.getElem_of_mem hd
  have hlt := h.word_lt k
  rwa [toNat_getD, List.getD_eq_getElem?_getD, List.getElem?_eq_getElem hk] at hlt

/-- All words above the first are the words of the modulus. -/
def TopWords (v : List UInt32) : Prop :=
  v.getD 31 0 = 127 ∧ ∀ k ∈ List.range 30, v.getD (30 - k) 0 = 255

instance (v : List UInt32) : Decidable (TopWords v) := inferInstanceAs (Decidable (_ ∧ _))

theorem freezeMask_eq {x : Fe25519} (h : Loose x) :
    freezeMask x.v = 0 - if TopWords x.v ∧ 237 ≤ (x.v.getD 0 0).toNat then 1 else 0 := by
  have hlt : ∀ k, (x.v.getD k 0).toNat < 2 ^ 16 := fun k =>
    Nat.lt_of_lt_of_le (h.word_lt k) (by decide)
  rw [freezeMask, equal_eq (hlt 31) (by decide), ge_eq (hlt 0) (by decide),
    foldl_and_bit _ fun k _ => equal_eq (hlt (30 - k)) (by decide), and_bit]
  rfl

theorem topWords_iff {x : Fe25519} :
    TopWords x.v ↔ (nats x.v).tail = List.replicate 30 255 ++ [127] := by
  have hlen := length_nats x
  have hget : ∀ i (hi : i < (nats x.v).tail.length),
      (nats x.v).tail[i] = (x.v.getD (i + 1) 0).toNat := by
    intro i hi
    rw [List.length_tail] at hi
    rw [toNat_getD, List.getElem_tail, List.getD_eq_getElem?_getD,
      List.getElem?_eq_getElem (by omega), Option.getD_some]
  have htab : ∀ i (hi : i < 31), (List.replicate 30 255 ++ [127]).get ⟨i, by simpa using hi⟩ =
      if i < 30 then 255 else 127 := by decide
  constructor
  · rintro ⟨htop, hrest⟩
    refine List.ext_getElem (by simp [x.length_v]) fun i h1 h2 => ?_
    rw [hget i h1]
    rw [List.length_tail, hlen] at h1
    refine Eq.trans ?_ (htab i h1).symm
    rcases Nat.lt_or_ge i 30 with hi | hi
    · have hword := hrest (29 - i) (List.mem_range.2 (by omega))
      rw [show 30 - (29 - i) = i + 1 by omega] at hword
      rw [hword, if_pos hi]
      rfl
    · have hword : x.v.getD (i + 1) 0 = 127 := by
        rw [show i + 1 = 31 by omega]
        exact htop
      rw [hword, if_neg (Nat.not_lt.2 hi)]
      rfl
  · intro h
    have hword : ∀ i (hi : i < 31), (x.v.getD (i + 1) 0).toNat =
        (List.replicate 30 255 ++ [127]).get ⟨i, by simpa using hi⟩ := by
      intro i hi
      have hi' : i < (nats x.v).tail.length := by
        rw [List.length_tail, hlen]
        exact hi
      rw [← hget i hi']
      exact List.getElem_of_eq h hi'
    refine ⟨UInt32.toNat_inj.1 (hword 30 (by decide)), fun k hk => ?_⟩
    have hk' := List.mem_range.1 hk
    have hk30 := hword (29 - k) (by omega)
    rw [show 29 - k + 1 = 30 - k by omega] at hk30
    rw [htab _ (by omega), if_pos (by omega)] at hk30
    exact UInt32.toNat_inj.1 hk30

/-- The mask asks whether the number is between the modulus and `2 ^ 255`. -/
theorem topWords_iff_value {x : Fe25519} (h : Loose x) :
    TopWords x.v ∧ 237 ≤ (x.v.getD 0 0).toNat ↔ p ≤ value x ∧ value x < 2 ^ 255 := by
  have hmax : Nat.ofDigits 256 (List.replicate 30 255 ++ [127]) = 2 ^ 247 - 1 := by decide
  have hdigits := h.digits_lt
  have hlen := length_nats x
  have hfirst := h.word_lt 0
  have hvalue : value x = (x.v.getD 0 0).toNat + 256 * Nat.ofDigits 256 (nats x.v).tail := by
    rw [toNat_getD, value]
    cases hv : nats x.v with
    | nil =>
      rw [hv] at hlen
      simp at hlen
    | cons d l => rfl
  rw [topWords_iff, hvalue, p_eq]
  constructor
  · rintro ⟨htail, hword⟩
    rw [htail, hmax]
    omega
  · rintro ⟨hge, hlt⟩
    have htail : Nat.ofDigits 256 (nats x.v).tail = 2 ^ 247 - 1 := by omega
    refine ⟨eq_of_ofDigits_eq (fun d hd => hdigits d (List.mem_of_mem_tail hd)) (by decide) ?_
      (htail.trans hmax.symm), by omega⟩
    rw [List.length_tail, hlen]
    rfl

theorem zipWith_sub_zero : ∀ {v w : List UInt32}, v.length = w.length →
    v.zipWith (fun x w => x - (0 &&& w)) w = v
  | [], [], _ => rfl
  | x :: v, y :: w, h => by
    rw [List.zipWith_cons_cons, zipWith_sub_zero (Nat.succ.inj h), UInt32.zero_and,
      UInt32.sub_zero]

theorem freeze_v {x : Fe25519} {m : UInt32} (h : freezeMask x.v = m) :
    (freeze x).v = x.v.zipWith (fun y w => y - (m &&& w)) modulusWords := by
  subst h
  rfl

/-- **`fe25519_freeze`** subtracts the modulus once, from a number below `2 ^ 255`. -/
theorem freeze_spec {x : Fe25519} (h : Loose x) :
    Loose (freeze x) ∧ value (freeze x) =
      if p ≤ value x ∧ value x < 2 ^ 255 then value x - p else value x := by
  by_cases hmask : TopWords x.v ∧ 237 ≤ (x.v.getD 0 0).toNat
  · -- every word is at least the word of the modulus
    have hwords : LimbsLe (nats modulusWords) (nats x.v) := by
      have htail := topWords_iff.1 hmask.1
      have hword := hmask.2
      have hlen := length_nats x
      rw [toNat_getD] at hword
      cases hv : nats x.v with
      | nil =>
        rw [hv] at hlen
        simp at hlen
      | cons d l =>
        rw [hv] at htail hword
        rw [show l = List.replicate 30 255 ++ [127] from htail]
        exact .cons hword (by decide)
    have hand : ∀ w : UInt32, (0 - 1 : UInt32) &&& w = w := by
      intro w
      rw [show (0 - 1 : UInt32) = -1 by decide, UInt32.neg_one_and]
    have hv : (freeze x).v = x.v.zipWith (· - ·) modulusWords := by
      have hones := freezeMask_eq h
      rw [if_pos hmask] at hones
      rw [freeze_v hones]
      simp only [hand]
    have hmod : Nat.ofDigits 256 (nats modulusWords) = p := by
      rw [p_eq]
      decide
    obtain ⟨hle, hvalue⟩ := nats_zipWith_sub hwords
    have hvalue' := hvalue 256
    rw [hmod] at hvalue'
    rw [if_pos ((topWords_iff_value h).1 hmask), Loose, value, hv]
    exact ⟨hle.trans h, by rw [value]; omega⟩
  · have hsame : freeze x = x := by
      have hzero := freezeMask_eq h
      rw [if_neg hmask, UInt32.sub_self] at hzero
      refine Fe25519.ext ?_
      rw [freeze_v hzero]
      exact zipWith_sub_zero x.length_v
    rw [if_neg fun hvalue => hmask ((topWords_iff_value h).2 hvalue), hsame]
    exact ⟨h, rfl⟩

theorem Loose.freeze {x : Fe25519} (h : Loose x) : Loose (freeze x) := (freeze_spec h).1

theorem Tight.value_freeze {x : Fe25519} (h : Tight x) : value (freeze x) = value x % p := by
  have hp := p_eq
  have hlt := h.lt
  rw [(freeze_spec h.loose).2]
  split
  · rename_i hge
    rw [Nat.mod_eq_sub_mod hge.1, Nat.mod_eq_of_lt (by omega)]
  · rw [Nat.mod_eq_of_lt (by omega)]

theorem value_freeze_of_ge {x : Fe25519} (h : Loose x) (hge : 2 ^ 255 ≤ value x) :
    value (freeze x) = value x := by
  rw [(freeze_spec h).2, if_neg fun hlt => absurd hlt.2 (Nat.not_lt.2 hge)]

/-- Loose words are never as large as twice the modulus. -/
theorem Loose.value_lt {x : Fe25519} (h : Loose x) : value x < 2 ^ 255 + 2 ^ 248 := by
  have hmax : Nat.ofDigits 256 looseWords < 2 ^ 255 + 2 ^ 248 := by decide
  exact Nat.lt_of_le_of_lt (ofDigits_mono 256 h.le) hmax

theorem mod_of_ge {x : Fe25519} (h : Loose x) (hge : 2 ^ 255 ≤ value x) :
    value x % p = value x - p := by
  have hp := p_eq
  have hlt := h.value_lt
  rw [Nat.mod_eq_sub_mod (by omega), Nat.mod_eq_of_lt (by omega)]

/-! ## Bytes -/

/-- The thirty-two bytes of a number, least significant first. -/
def encode (n : Nat) : List UInt8 := (List.range 32).map fun k => UInt8.ofNat (digit 256 n k)

theorem toNat_encode (n : Nat) : (encode n).map UInt8.toNat = (List.range 32).map (digit 256 n) := by
  rw [encode, List.map_map]
  refine List.map_congr_left fun k _ => ?_
  rw [Function.comp_apply, UInt8.toNat_ofNat', Nat.mod_eq_of_lt (digit_lt (by decide) n k)]

theorem encode_eq {l : List UInt8} (h : l.length = 32) :
    encode (Nat.ofDigits 256 (l.map UInt8.toNat)) = l := by
  refine List.ext_getElem (by simp [encode, h]) fun k h1 h2 => ?_
  have hdigits : ∀ d ∈ l.map UInt8.toNat, d < 256 := by
    intro d hd
    obtain ⟨b, -, rfl⟩ := List.mem_map.1 hd
    exact b.toNat_lt
  have hk : k < (l.map UInt8.toNat).length := by rwa [List.length_map]
  simp only [encode, List.getElem_map, List.getElem_range]
  rw [← getElem_eq_digit hdigits hk, List.getElem_map, UInt8.ofNat_toNat]

/-- **`fe25519_pack`** writes the bytes of what `freeze` leaves. -/
theorem pack_eq {x : Fe25519} (h : Loose x) : pack x = encode (value (freeze x)) := by
  have hbytes : (pack x).map UInt8.toNat = nats (freeze x).v := by
    rw [pack, nats, List.map_map]
    refine List.map_congr_left fun w hw => ?_
    have hlt : w.toNat < 256 := h.freeze.digits_lt _ (List.mem_map_of_mem hw)
    rw [Function.comp_apply, UInt32.toNat_toUInt8, Nat.mod_eq_of_lt hlt]
  rw [value, ← hbytes, encode_eq]
  rw [pack, List.length_map, Fe25519.length_v]

theorem ofDigits_encode {n : Nat} (h : n < 2 ^ 256) :
    Nat.ofDigits 256 ((encode n).map UInt8.toNat) = n := by
  have hpow : (256 : Nat) ^ 32 = 2 ^ 256 := by norm_num
  rw [toNat_encode, ofDigits_map_digit, hpow, Nat.mod_eq_of_lt h]

theorem encode_inj {n m : Nat} (hn : n < 2 ^ 256) (hm : m < 2 ^ 256) (h : encode n = encode m) :
    n = m := by
  rw [← ofDigits_encode hn, ← ofDigits_encode hm, h]

/-- **`fe25519_pack`** is right for exactly the numbers below `2 ^ 255`. -/
theorem pack_iff {x : Fe25519} (h : Loose x) :
    pack x = encode (value x % p) ↔ value x < 2 ^ 255 := by
  have hp := p_eq
  have hlt := h.value_lt
  constructor
  · intro hpack
    by_contra hge
    have hge := Nat.not_lt.1 hge
    rw [pack_eq h, value_freeze_of_ge h hge] at hpack
    have hsame := encode_inj (by omega)
      ((Nat.mod_le _ _).trans_lt (show value x < 2 ^ 256 by omega)) hpack
    have hmod := mod_of_ge h hge
    omega
  · intro hlt
    rw [pack_eq h, (Tight.mk h hlt).value_freeze]

/-- `fe25519_unpack` reads a number and drops its top bit. -/
theorem unpack_spec {b : List UInt8} (hb : b.length = 32) :
    Tight (unpack b) ∧ value (unpack b) = Nat.ofDigits 256 (b.map UInt8.toNat) % 2 ^ 255 := by
  have hread : (List.range 32).map (fun i => (b.getD i 0).toUInt32) = b.map UInt8.toUInt32 := by
    have hrange := map_range_getD 0 (l := b) (k := 0) (n := 32) (by omega)
    simp only [Nat.zero_add, List.drop_zero] at hrange
    rw [List.take_of_length_le (by omega)] at hrange
    conv_rhs => rw [← hrange, List.map_map]
    rfl
  have hnats : nats (b.map UInt8.toUInt32) = b.map UInt8.toNat := by
    rw [nats, List.map_map]
    exact List.map_congr_left fun d _ => UInt8.toNat_toUInt32 d
  have hunpack : nats (unpack b).v = (b.map UInt8.toNat).set 31
      ((b.map UInt8.toNat).getD 31 0 % 128) := by
    rw [unpack]
    simp only [hread]
    rw [nats, List.map_set, ← nats, hnats, toNat_and_127, toNat_getD, hnats]
  have hbytes : LimbsLe (b.map UInt8.toNat) (List.replicate 32 255) := by
    rw [← hb, ← List.map_const']
    exact List.forall₂_map_left_iff.2 (List.forall₂_map_right_iff.2
      (List.forall₂_same.2 fun d _ => Nat.le_of_lt_succ d.toNat_lt))
  have hset := ofDigits_set 256 ((b.map UInt8.toNat).getD 31 0 % 128) 31 (b.map UInt8.toNat)
    (by rw [List.length_map]; omega)
  have hwords : LimbsLe (nats (unpack b).v) (List.replicate 31 255 ++ [127]) := by
    rw [hunpack]
    exact hbytes.set 31 (Nat.le_of_lt_succ (Nat.mod_lt _ (by decide)))
  have hlt : value (unpack b) < 2 ^ 255 := by
    have hmax : Nat.ofDigits 256 (List.replicate 31 255 ++ [127]) < 2 ^ 255 := by decide
    exact Nat.lt_of_le_of_lt (ofDigits_mono 256 hwords) hmax
  refine ⟨⟨hwords.trans (by decide), hlt⟩, ?_⟩
  rw [value, hunpack] at hlt ⊢
  omega

/-! ## Tests -/

theorem value_inj {x y : Fe25519} (hx : Loose x) (hy : Loose y) (h : value x = value y) :
    x = y := by
  have hnats := eq_of_ofDigits_eq hx.digits_lt hy.digits_lt
    (by rw [length_nats, length_nats]) h
  refine Fe25519.ext ?_
  rw [← map_ofNat_nats x.v, hnats, map_ofNat_nats]

/-- Words that are equal one by one. -/
theorem eq_of_getD {x y : Fe25519} (h : ∀ k < 32, x.v.getD k 0 = y.v.getD k 0) : x = y := by
  refine Fe25519.ext (List.ext_getElem (by rw [x.length_v, y.length_v]) fun k h1 h2 => ?_)
  have hk := h k (by rwa [x.length_v] at h1)
  rwa [List.getD_eq_getElem?_getD, List.getD_eq_getElem?_getD, List.getElem?_eq_getElem h1,
    List.getElem?_eq_getElem h2, Option.getD_some, Option.getD_some] at hk

theorem value_freeze_eq_zero {x : Fe25519} (h : Loose x) :
    value (freeze x) = 0 ↔ (value x : ZMod p) = 0 := by
  have hp := p_eq
  have hlt := h.value_lt
  rw [ZMod.natCast_eq_zero_iff]
  rcases Nat.lt_or_ge (value x) (2 ^ 255) with hx | hx
  · rw [(Tight.mk h hx).value_freeze, Nat.dvd_iff_mod_eq_zero]
  · rw [value_freeze_of_ge h hx, Nat.dvd_iff_mod_eq_zero, mod_of_ge h hx]
    omega

/-- **`fe25519_iszero`** is right for all words that can occur. -/
theorem iszero_eq {x : Fe25519} (h : Loose x) :
    iszero x = if (value x : ZMod p) = 0 then 1 else 0 := by
  have hlt : ∀ k, ((freeze x).v.getD k 0).toNat < 2 ^ 16 := fun k =>
    Nat.lt_of_lt_of_le (h.freeze.word_lt k) (by decide)
  have hzero : ((freeze x).v.getD 0 0 = 0 ∧ ∀ k ∈ List.range 31, (freeze x).v.getD (k + 1) 0 = 0) ↔
      (value x : ZMod p) = 0 := by
    have hsetzero : ∀ k < 32, setzero.v.getD k 0 = 0 := by decide
    have hvalue : value setzero = 0 := by decide
    rw [← value_freeze_eq_zero h]
    constructor
    · rintro ⟨hfirst, hrest⟩
      have hsame : freeze x = setzero := by
        refine eq_of_getD fun k hk => ?_
        rw [hsetzero k hk]
        cases k with
        | zero => exact hfirst
        | succ k => exact hrest k (List.mem_range.2 (by omega))
      rw [hsame, hvalue]
    · intro h0
      rw [value_inj h.freeze represents_setzero.loose (h0.trans hvalue.symm)]
      exact ⟨by decide, by decide⟩
  have hbit := if_congr hzero (rfl : (1 : UInt32) = 1) (rfl : (0 : UInt32) = 0)
  rw [← hbit, iszero, equal_eq (hlt 0) (by decide), foldl_and_bit _ fun k _ => equal_eq (hlt (k + 1)) (by decide)]

theorem iseqVartime_freeze {x y : Fe25519} (hx : Loose x) (hy : Loose y) :
    iseqVartime x y = true ↔ value (freeze x) = value (freeze y) := by
  have hall : iseqVartime x y = true ↔ freeze x = freeze y := by
    rw [iseqVartime]
    simp only [List.all_eq_true, List.mem_range, beq_iff_eq]
    exact ⟨eq_of_getD, fun h k _ => by rw [h]⟩
  rw [hall]
  exact ⟨fun h => by rw [h], value_inj hx.freeze hy.freeze⟩

/-- **`fe25519_iseq_vartime`** finds equal residues equal exactly if both numbers are below
`2 ^ 255` or neither is. -/
theorem iseqVartime_iff {x y : Fe25519} (hx : Loose x) (hy : Loose y) :
    iseqVartime x y = true ↔
      (value x : ZMod p) = value y ∧ (value x < 2 ^ 255 ↔ value y < 2 ^ 255) := by
  have hp := p_eq
  have hpos : 0 < p := by omega
  have hxlt := hx.value_lt
  have hylt := hy.value_lt
  rw [iseqVartime_freeze hx hy, ZMod.natCast_eq_natCast_iff']
  rcases Nat.lt_or_ge (value x) (2 ^ 255) with hx' | hx' <;>
    rcases Nat.lt_or_ge (value y) (2 ^ 255) with hy' | hy'
  · rw [(Tight.mk hx hx').value_freeze, (Tight.mk hy hy').value_freeze]
    exact ⟨fun h => ⟨h, iff_of_true hx' hy'⟩, fun h => h.1⟩
  · rw [(Tight.mk hx hx').value_freeze, value_freeze_of_ge hy hy']
    have hmod := Nat.mod_lt (value x) hpos
    exact ⟨fun h => by omega, fun h => absurd (h.2.1 hx') (Nat.not_lt.2 hy')⟩
  · rw [(Tight.mk hy hy').value_freeze, value_freeze_of_ge hx hx']
    have hmod := Nat.mod_lt (value y) hpos
    exact ⟨fun h => by omega, fun h => absurd (h.2.2 hy') (Nat.not_lt.2 hx')⟩
  · rw [value_freeze_of_ge hx hx', value_freeze_of_ge hy hy', mod_of_ge hx hx', mod_of_ge hy hy']
    exact ⟨fun h => ⟨by rw [h], iff_of_false (Nat.not_lt.2 hx') (Nat.not_lt.2 hy')⟩,
      fun h => by omega⟩

theorem getparity_eq (x : Fe25519) : (getparity x).toNat = value (freeze x) % 2 := by
  have hlen := length_nats (freeze x)
  have hvalue : value (freeze x) =
      ((freeze x).v.getD 0 0).toNat + 256 * Nat.ofDigits 256 (nats (freeze x).v).tail := by
    rw [toNat_getD, value]
    cases hv : nats (freeze x).v with
    | nil =>
      rw [hv] at hlen
      simp at hlen
    | cons d l => rfl
  have hand : ((freeze x).v.getD 0 0 &&& 1).toNat = ((freeze x).v.getD 0 0).toNat % 2 := by
    rw [UInt32.toNat_and]
    exact Nat.and_two_pow_sub_one_eq_mod _ 1
  rw [getparity, UInt32.toNat_toUInt8, hand, hvalue]
  omega

/-- **`fe25519_getparity`** is right for exactly the numbers below `2 ^ 255`. -/
theorem getparity_iff {x : Fe25519} (h : Loose x) :
    (getparity x).toNat = value x % p % 2 ↔ value x < 2 ^ 255 := by
  have hp := p_eq
  rw [getparity_eq x]
  rcases Nat.lt_or_ge (value x) (2 ^ 255) with hx | hx
  · rw [(Tight.mk h hx).value_freeze]
    exact iff_of_true rfl hx
  · rw [value_freeze_of_ge h hx, mod_of_ge h hx]
    exact iff_of_false (by omega) (Nat.not_lt.2 hx)

/-! ## Products -/

/-- A residue that a product cannot have in words of a number above `2 ^ 255`. -/
def Clear (a : ZMod p) : Prop := a.val < 19 ∨ 19 + mulSlack ≤ a.val

/-- A product whose residue is not one of the small ones in between is below `2 ^ 255`. -/
theorem mul_tight {x y : Fe25519} (hx : Loose x) (hy : Loose y)
    (h : Clear (value x * value y)) : Tight (mul x y) := by
  have hp := p_eq
  obtain ⟨hloose, hcast, hlt⟩ := mul_spec hx hy
  refine ⟨hloose, ?_⟩
  by_contra hge
  have hge := Nat.not_lt.1 hge
  rw [← hcast, Clear, ZMod.val_natCast, mod_of_ge hloose hge] at h
  rw [mulSlack] at h hlt
  omega

/-! ## Results -/

/-- **Canonical forms.**  The bytes that `fe25519_pack` writes and the bit that `fe25519_getparity`
returns are those of the residue for exactly the numbers below `2 ^ 255`, which `freeze` can reduce.
`fe25519_iszero` is always right.  `fe25519_iseq_vartime` never finds different residues equal, and
finds equal ones equal unless just one of the two numbers is too large. -/
theorem canonical_forms {x y : Fe25519} (hx : Loose x) (hy : Loose y) :
    (pack x = encode (value x % p) ↔ value x < 2 ^ 255) ∧
      ((getparity x).toNat = value x % p % 2 ↔ value x < 2 ^ 255) ∧
      (iszero x = if (value x : ZMod p) = 0 then 1 else 0) ∧
      (iseqVartime x y = true ↔
        (value x : ZMod p) = value y ∧ (value x < 2 ^ 255 ↔ value y < 2 ^ 255)) :=
  ⟨pack_iff hx, getparity_iff hx, iszero_eq hx, iseqVartime_iff hx hy⟩

/-- The largest loose words are too large, as words of a residue and next to a small one. -/
theorem canonical_forms_largest :
    let x : Fe25519 := ⟨List.replicate 31 255 ++ [128], by decide⟩
    (pack x = encode (value x % p) ↔ value x < 2 ^ 255) ∧
      ((getparity x).toNat = value x % p % 2 ↔ value x < 2 ^ 255) ∧
      (iszero x = if (value x : ZMod p) = 0 then 1 else 0) ∧
      (iseqVartime x setone = true ↔ (value x : ZMod p) = value setone ∧
        (value x < 2 ^ 255 ↔ value setone < 2 ^ 255)) :=
  canonical_forms (by decide) (by decide)

/-- **Bytes and back.**  Thirty-two bytes come back from `unpack` and `pack` exactly if the number in
them is reduced, and what comes back always stands for their residue without the top bit. -/
theorem pack_unpack {b : List UInt8} (hb : b.length = 32) :
    (pack (unpack b) = b ↔ Nat.ofDigits 256 (b.map UInt8.toNat) < p) ∧
      Nat.ofDigits 256 ((pack (unpack b)).map UInt8.toNat) =
        Nat.ofDigits 256 (b.map UInt8.toNat) % 2 ^ 255 % p := by
  have hp := p_eq
  obtain ⟨htight, hvalue⟩ := unpack_spec hb
  have hmod : value (unpack b) % p < p := Nat.mod_lt _ (by omega)
  have hback : Nat.ofDigits 256 ((pack (unpack b)).map UInt8.toNat) =
      Nat.ofDigits 256 (b.map UInt8.toNat) % 2 ^ 255 % p := by
    rw [(pack_iff htight.loose).2 htight.lt, ofDigits_encode (by omega), hvalue]
  refine ⟨⟨fun h => ?_, fun h => ?_⟩, hback⟩
  · rw [h, ← hvalue] at hback
    rw [hback]
    exact hmod
  · rw [(pack_iff htight.loose).2 htight.lt, hvalue, Nat.mod_eq_of_lt (by omega),
      Nat.mod_eq_of_lt (by omega), encode_eq hb]

theorem pack_unpack_ones :
    (pack (unpack (List.replicate 32 255)) = List.replicate 32 255 ↔
        Nat.ofDigits 256 ((List.replicate 32 (255 : UInt8)).map UInt8.toNat) < p) ∧
      Nat.ofDigits 256 ((pack (unpack (List.replicate 32 255))).map UInt8.toNat) =
        Nat.ofDigits 256 ((List.replicate 32 (255 : UInt8)).map UInt8.toNat) % 2 ^ 255 % p :=
  pack_unpack List.length_replicate

end Fe25519
end Zedboard
