import Zedboard.Ed25519.Scalar
import Zedboard.Lib.SignedDigits

/-!
# Windows of a scalar

The digits that `sc25519_window3` and `sc25519_window5` cut out of a scalar are its digits in base `8`
and `32`, of `255` bits together.  The loop that makes them signed works in place on `signed char`,
where a digit may for a moment be equal to the base; `makeSigned_eq` says that it is `recode`.
-/

set_option autoImplicit false

namespace Zedboard
namespace Sc25519

/-! ## Bits of words -/

/-- Bits that do not overlap are added. -/
theorem xor_eq_add {x y k : Nat} (h : x < 2 ^ k) : x ^^^ (2 ^ k * y) = 2 ^ k * y + x := by
  refine Nat.eq_of_testBit_eq fun j => ?_
  rw [Nat.testBit_xor, Nat.testBit_two_pow_mul, Nat.testBit_two_pow_mul_add y h]
  split
  · rename_i hj
    simp [Nat.not_le.2 hj]
  · rename_i hj
    have hle : k ≤ j := Nat.not_lt.1 hj
    rw [Nat.testBit_lt_two_pow (Nat.lt_of_lt_of_le h (Nat.pow_le_pow_right (by decide) hle))]
    simp [hle]

theorem toNat_mask {mask : UInt32} {w : Nat} (hmask : mask.toNat = 2 ^ w - 1) (x : UInt32) :
    (x &&& mask).toNat = x.toNat % 2 ^ w := by
  rw [UInt32.toNat_and, hmask, Nat.and_two_pow_sub_one_eq_mod]

theorem toNat_shr {mask k : UInt32} {w : Nat} (hmask : mask.toNat = 2 ^ w - 1) (hk : k.toNat < 32)
    (x : UInt32) : (shr mask x k).toNat = x.toNat / 2 ^ k.toNat % 2 ^ w := by
  rw [shr, toNat_mask hmask, UInt32.toNat_shiftRight, Nat.mod_eq_of_lt hk,
    Nat.shiftRight_eq_div_pow]

theorem toNat_shl {mask k : UInt32} {w : Nat} (hmask : mask.toNat = 2 ^ w - 1) (hw : w < 32)
    (hk : k.toNat ≤ w) (x : UInt32) :
    (shl mask x k).toNat = 2 ^ k.toNat * (x.toNat % 2 ^ (w - k.toNat)) := by
  have hdvd : 2 ^ w ∣ 2 ^ 32 := Nat.pow_dvd_pow 2 hw.le
  have hpow : 2 ^ w = 2 ^ k.toNat * 2 ^ (w - k.toNat) := by
    rw [← pow_add, Nat.add_sub_cancel' hk]
  have hshift : k.toNat % 32 = k.toNat := Nat.mod_eq_of_lt (Nat.lt_of_le_of_lt hk hw)
  rw [shl, toNat_mask hmask, UInt32.toNat_shiftLeft, hshift, Nat.shiftLeft_eq,
    Nat.mod_mod_of_dvd _ hdvd, hpow, Nat.mul_comm, Nat.mul_mod_mul_left]

/-- The upper bits of one byte and the lower bits of the next one. -/
theorem toNat_shr_xor_shl {mask k j : UInt32} {w : Nat} (hmask : mask.toNat = 2 ^ w - 1)
    (hw : w < 32) (hk : k.toNat < 32) (hj : j.toNat ≤ w) {x : UInt32}
    (hx : x.toNat / 2 ^ k.toNat < 2 ^ j.toNat) (y : UInt32) :
    (shr mask x k ^^^ shl mask y j).toNat =
      x.toNat / 2 ^ k.toNat + 2 ^ j.toNat * (y.toNat % 2 ^ (w - j.toNat)) := by
  have hlt : x.toNat / 2 ^ k.toNat < 2 ^ w :=
    Nat.lt_of_lt_of_le hx (Nat.pow_le_pow_right (by decide) hj)
  rw [UInt32.toNat_xor, toNat_shr hmask hk, toNat_shl hmask hw hj, Nat.mod_eq_of_lt hlt,
    xor_eq_add hx, Nat.add_comm]

/-! ## Digits -/

theorem window3Low_spec {a : UInt32} (ha : a.toNat < 256) (b : UInt32) :
    Nat.ofDigits 8 (nats (window3Low a b)) = (a.toNat + 256 * b.toNat) % 2 ^ 15 ∧
      ∀ x ∈ nats (window3Low a b), x < 8 := by
  have h7 : (7 : UInt32).toNat = 2 ^ 3 - 1 := rfl
  have hlt : a.toNat / 64 < 4 := by omega
  have h0 : (a &&& 7).toNat = a.toNat % 8 := toNat_mask h7 a
  have h1 : (shr 7 a 3).toNat = a.toNat / 8 % 8 := toNat_shr h7 (by decide) a
  have h2 : (shr 7 a 6 ^^^ shl 7 b 2).toNat = a.toNat / 64 + 4 * (b.toNat % 2) :=
    toNat_shr_xor_shl h7 (by decide) (by decide) (by decide) hlt b
  have h3 : (shr 7 b 1).toNat = b.toNat / 2 % 8 := toNat_shr h7 (by decide) b
  have h4 : (shr 7 b 4).toNat = b.toNat / 16 % 8 := toNat_shr h7 (by decide) b
  simp only [window3Low, nats, List.map_cons, List.map_nil, h0, h1, h2, h3, h4, Nat.ofDigits_cons,
    Nat.ofDigits_nil, List.forall_mem_cons, List.not_mem_nil, IsEmpty.forall_iff, implies_true,
    and_true]
  omega

theorem window3High_spec {b c : UInt32} (hb : b.toNat < 256) (hc : c.toNat < 256) :
    Nat.ofDigits 8 (nats (window3High b c)) = b.toNat / 128 + 2 * c.toNat ∧
      ∀ x ∈ nats (window3High b c), x < 8 := by
  have h7 : (7 : UInt32).toNat = 2 ^ 3 - 1 := rfl
  have hlt : b.toNat / 128 < 2 := by omega
  have h0 : (shr 7 b 7 ^^^ shl 7 c 1).toNat = b.toNat / 128 + 2 * (c.toNat % 4) :=
    toNat_shr_xor_shl h7 (by decide) (by decide) (by decide) hlt c
  have h1 : (shr 7 c 2).toNat = c.toNat / 4 % 8 := toNat_shr h7 (by decide) c
  have h2 : (shr 7 c 5).toNat = c.toNat / 32 % 8 := toNat_shr h7 (by decide) c
  simp only [window3High, nats, List.map_cons, List.map_nil, h0, h1, h2, Nat.ofDigits_cons,
    Nat.ofDigits_nil, List.forall_mem_cons, List.not_mem_nil, IsEmpty.forall_iff, implies_true,
    and_true]
  omega

theorem window5Low_spec {a : UInt32} (ha : a.toNat < 256) (b : UInt32) :
    Nat.ofDigits 32 (nats (window5Low a b)) = (a.toNat + 256 * b.toNat) % 2 ^ 15 ∧
      ∀ x ∈ nats (window5Low a b), x < 32 := by
  have h31 : (31 : UInt32).toNat = 2 ^ 5 - 1 := rfl
  have hlt : a.toNat / 32 < 8 := by omega
  have h0 : (a &&& 31).toNat = a.toNat % 32 := toNat_mask h31 a
  have h1 : (shr 31 a 5 ^^^ shl 31 b 3).toNat = a.toNat / 32 + 8 * (b.toNat % 4) :=
    toNat_shr_xor_shl h31 (by decide) (by decide) (by decide) hlt b
  have h2 : (shr 31 b 2).toNat = b.toNat / 4 % 32 := toNat_shr h31 (by decide) b
  simp only [window5Low, nats, List.map_cons, List.map_nil, h0, h1, h2, Nat.ofDigits_cons,
    Nat.ofDigits_nil, List.forall_mem_cons, List.not_mem_nil, IsEmpty.forall_iff, implies_true,
    and_true]
  omega

theorem window5High_spec {b c d e : UInt32} (hb : b.toNat < 256) (hc : c.toNat < 256)
    (hd : d.toNat < 256) (he : e.toNat < 256) :
    Nat.ofDigits 32 (nats (window5High b c d e)) =
        b.toNat / 128 + 2 * (c.toNat + 256 * (d.toNat + 256 * e.toNat)) ∧
      ∀ x ∈ nats (window5High b c d e), x < 32 := by
  have h31 : (31 : UInt32).toNat = 2 ^ 5 - 1 := rfl
  have hltb : b.toNat / 128 < 2 := by omega
  have hltc : c.toNat / 16 < 16 := by omega
  have hltd : d.toNat / 64 < 4 := by omega
  have h0 : (shr 31 b 7 ^^^ shl 31 c 1).toNat = b.toNat / 128 + 2 * (c.toNat % 16) :=
    toNat_shr_xor_shl h31 (by decide) (by decide) (by decide) hltb c
  have h1 : (shr 31 c 4 ^^^ shl 31 d 4).toNat = c.toNat / 16 + 16 * (d.toNat % 2) :=
    toNat_shr_xor_shl h31 (by decide) (by decide) (by decide) hltc d
  have h2 : (shr 31 d 1).toNat = d.toNat / 2 % 32 := toNat_shr h31 (by decide) d
  have h3 : (shr 31 d 6 ^^^ shl 31 e 2).toNat = d.toNat / 64 + 4 * (e.toNat % 8) :=
    toNat_shr_xor_shl h31 (by decide) (by decide) (by decide) hltd e
  have h4 : (shr 31 e 3).toNat = e.toNat / 8 % 32 := toNat_shr h31 (by decide) e
  simp only [window5High, nats, List.map_cons, List.map_nil, h0, h1, h2, h3, h4, Nat.ofDigits_cons,
    Nat.ofDigits_nil, List.forall_mem_cons, List.not_mem_nil, IsEmpty.forall_iff, implies_true,
    and_true]
  omega

/-- The bytes of a scalar, one by one. -/
theorem nats_eq_range (s : Sc25519) :
    nats s.v = (List.range 32).map fun i => (s.v.getD i 0).toNat := by
  have hrange := map_range_getD 0 (l := s.v) (k := 0) (n := 32) (by rw [s.length_v])
  simp only [Nat.zero_add, List.drop_zero] at hrange
  rw [List.take_of_length_le s.length_v.le] at hrange
  conv_lhs => rw [← hrange, nats, List.map_map]
  rfl

theorem Bytes.getD_lt {s : Sc25519} (h : Bytes s.v) (i : Nat) : (s.v.getD i 0).toNat < 256 := by
  rw [List.getD_eq_getElem?_getD]
  rcases Nat.lt_or_ge i s.v.length with hi | hi
  · rw [List.getElem?_eq_getElem hi]
    exact h _ (List.getElem_mem hi)
  · rw [List.getElem?_eq_none hi]
    decide

theorem toInt_signedChar {x : UInt32} (h : x.toNat < 128) : x.toUInt8.toInt8.toInt = x.toNat := by
  have hx : x.toUInt8.toNat = x.toNat := by
    rw [UInt32.toNat_toUInt8, Nat.mod_eq_of_lt (by omega)]
  have hint : x.toUInt8.toInt8.toInt = x.toUInt8.toBitVec.toInt := rfl
  rw [hint, BitVec.toInt_eq_toNat_of_lt (by change 2 * x.toUInt8.toNat < 2 ^ 8; omega)]
  exact congrArg _ hx

/-- Digits that are cut out of groups of bytes, and some bits of the bytes above them. -/
theorem windowDigits_spec {b j k n w : Nat} {f : Nat → List UInt32} {g : Nat → List Nat}
    {t : List UInt32} {u : List Nat} (hb : b ≤ 128) (hpow : b ^ j = 256 ^ k)
    (hf : ∀ i, (f i).length = j) (hg : ∀ i, (g i).length = k)
    (hgroup : ∀ i, Nat.ofDigits b (nats (f i)) = Nat.ofDigits 256 (g i) ∧ ∀ x ∈ nats (f i), x < b)
    (hbytes : ∀ i, ∀ d ∈ g i, d < 256)
    (htop : Nat.ofDigits b (nats t) = Nat.ofDigits 256 u % w ∧ ∀ x ∈ nats t, x < b) :
    let r := nats ((List.range n).flatMap f ++ t)
    (((List.range n).flatMap f ++ t).map fun x => x.toUInt8.toInt8).map Int8.toInt =
        r.map Nat.cast ∧ r.length = n * j + t.length ∧ (∀ d ∈ r, d < b) ∧
      Nat.ofDigits b r =
        Nat.ofDigits 256 ((List.range n).flatMap g ++ u) % (256 ^ (n * k) * w) := by
  have hnats : nats ((List.range n).flatMap f ++ t) =
      ((List.range n).flatMap fun i => nats (f i)) ++ nats t := by
    rw [nats, List.map_append, List.map_flatMap]
  have hlenf : ((List.range n).flatMap fun i => nats (f i)).length = n * j := by
    simp [List.length_flatMap, hf]
  have hleng : ((List.range n).flatMap g).length = n * k := by
    simp [List.length_flatMap, hg]
  have hlt : ∀ d ∈ nats ((List.range n).flatMap f ++ t), d < b := by
    intro d hd
    rw [hnats] at hd
    rcases List.mem_append.1 hd with hd | hd
    · obtain ⟨i, -, hd⟩ := List.mem_flatMap.1 hd
      exact (hgroup i).2 d hd
    · exact htop.2 d hd
  refine ⟨?_, ?_, hlt, ?_⟩
  · rw [List.map_map, nats, List.map_map]
    refine List.map_congr_left fun x hx => toInt_signedChar ?_
    exact Nat.lt_of_lt_of_le (hlt _ (List.mem_map_of_mem hx)) hb
  · rw [hnats, List.length_append, hlenf, List.length_map]
  · rw [hnats, ← hleng]
    refine ofDigits_append_mod (by decide) ?_ ?_ ?_ htop.1
    · intro d hd
      obtain ⟨i, -, hd⟩ := List.mem_flatMap.1 hd
      exact hbytes i d hd
    · rw [hlenf, hleng, Nat.mul_comm, pow_mul, hpow, ← pow_mul, Nat.mul_comm]
    · exact ofDigits_flatMap_congr hpow (fun i => by rw [List.length_map, hf]) hg fun i _ => (hgroup i).1

/-- **The digits of `sc25519_window3`**, before they are made signed. -/
theorem window3Digits_spec {s : Sc25519} (h : Bytes s.v) :
    ∃ l : List Nat, (window3Digits s).map Int8.toInt = l.map Nat.cast ∧ l.length = 85 ∧
      (∀ d ∈ l, d < 8) ∧ Nat.ofDigits 8 l = value s % 2 ^ 255 := by
  let v := fun i => s.v.getD i 0
  have hv : ∀ i, (v i).toNat < 256 := h.getD_lt
  have hgroup : ∀ i, Nat.ofDigits 8 (nats (window3Low (v (3 * i)) (v (3 * i + 1)) ++
        window3High (v (3 * i + 1)) (v (3 * i + 2)))) =
      Nat.ofDigits 256 [(v (3 * i)).toNat, (v (3 * i + 1)).toNat, (v (3 * i + 2)).toNat] ∧
      ∀ x ∈ nats (window3Low (v (3 * i)) (v (3 * i + 1)) ++
        window3High (v (3 * i + 1)) (v (3 * i + 2))), x < 8 := by
    intro i
    obtain ⟨hlow, hlow8⟩ := window3Low_spec (hv (3 * i)) (v (3 * i + 1))
    obtain ⟨hhigh, hhigh8⟩ := window3High_spec (hv (3 * i + 1)) (hv (3 * i + 2))
    have hb := hv (3 * i + 1)
    have ha := hv (3 * i)
    rw [nats, List.map_append, ← nats, ← nats]
    refine ⟨?_, fun x hx => (List.mem_append.1 hx).elim (hlow8 x) (hhigh8 x)⟩
    rw [Nat.ofDigits_append, hlow, hhigh, Nat.ofDigits_cons, Nat.ofDigits_cons, Nat.ofDigits_singleton]
    change _ + 8 ^ 5 * _ = _
    omega
  have hvalue : value s = Nat.ofDigits 256 (((List.range 10).flatMap fun i =>
      [(v (3 * i)).toNat, (v (3 * i + 1)).toNat, (v (3 * i + 2)).toNat]) ++
        [(v 30).toNat, (v 31).toNat]) :=
    congrArg (Nat.ofDigits 256) (nats_eq_range s)
  have htop := window3Low_spec (hv 30) (v 31)
  have hbytes : ∀ i, ∀ d ∈ [(v (3 * i)).toNat, (v (3 * i + 1)).toNat, (v (3 * i + 2)).toNat],
      d < 256 := by
    intro i
    simp [hv]
  obtain ⟨hint, hlen, hlt, heq⟩ := windowDigits_spec (n := 10) (w := 2 ^ 15) (j := 8) (k := 3)
    (u := [(v 30).toNat, (v 31).toNat]) (by decide) (by decide) (fun i => rfl) (fun i => rfl) hgroup
    hbytes ⟨htop.1.trans (by rw [Nat.ofDigits_cons, Nat.ofDigits_singleton]), htop.2⟩
  rw [← hvalue] at heq
  exact ⟨_, hint, hlen, hlt, heq⟩

/-- **The digits of `sc25519_window5`**, before they are made signed. -/
theorem window5Digits_spec {s : Sc25519} (h : Bytes s.v) :
    ∃ l : List Nat, (window5Digits s).map Int8.toInt = l.map Nat.cast ∧ l.length = 51 ∧
      (∀ d ∈ l, d < 32) ∧ Nat.ofDigits 32 l = value s % 2 ^ 255 := by
  let v := fun i => s.v.getD i 0
  have hv : ∀ i, (v i).toNat < 256 := h.getD_lt
  let g : Nat → List Nat := fun i => [(v (5 * i)).toNat, (v (5 * i + 1)).toNat,
    (v (5 * i + 2)).toNat, (v (5 * i + 3)).toNat, (v (5 * i + 4)).toNat]
  have hgroup : ∀ i, Nat.ofDigits 32 (nats (window5Low (v (5 * i)) (v (5 * i + 1)) ++
        window5High (v (5 * i + 1)) (v (5 * i + 2)) (v (5 * i + 3)) (v (5 * i + 4)))) =
      Nat.ofDigits 256 (g i) ∧
      ∀ x ∈ nats (window5Low (v (5 * i)) (v (5 * i + 1)) ++
        window5High (v (5 * i + 1)) (v (5 * i + 2)) (v (5 * i + 3)) (v (5 * i + 4))), x < 32 := by
    intro i
    obtain ⟨hlow, hlow32⟩ := window5Low_spec (hv (5 * i)) (v (5 * i + 1))
    obtain ⟨hhigh, hhigh32⟩ :=
      window5High_spec (hv (5 * i + 1)) (hv (5 * i + 2)) (hv (5 * i + 3)) (hv (5 * i + 4))
    have ha := hv (5 * i)
    have hb := hv (5 * i + 1)
    rw [nats, List.map_append, ← nats, ← nats]
    refine ⟨?_, fun x hx => (List.mem_append.1 hx).elim (hlow32 x) (hhigh32 x)⟩
    simp only [g]
    rw [Nat.ofDigits_append, hlow, hhigh, Nat.ofDigits_cons, Nat.ofDigits_cons, Nat.ofDigits_cons,
      Nat.ofDigits_cons, Nat.ofDigits_singleton]
    change _ + 32 ^ 3 * _ = _
    omega
  have hvalue : value s = Nat.ofDigits 256 (((List.range 6).flatMap g) ++
      [(v 30).toNat, (v 31).toNat]) :=
    congrArg (Nat.ofDigits 256) (nats_eq_range s)
  have htop := window5Low_spec (hv 30) (v 31)
  have hbytes : ∀ i, ∀ d ∈ g i, d < 256 := by
    intro i
    simp [g, hv]
  obtain ⟨hint, hlen, hlt, heq⟩ := windowDigits_spec (n := 6) (w := 2 ^ 15) (j := 8) (k := 5)
    (u := [(v 30).toNat, (v 31).toNat]) (by decide) (by decide) (fun i => rfl) (fun i => rfl) hgroup
    hbytes ⟨htop.1.trans (by rw [Nat.ofDigits_cons, Nat.ofDigits_singleton]), htop.2⟩
  rw [← hvalue] at heq
  exact ⟨_, hint, hlen, hlt, heq⟩

/-! ## Signed digits -/

/-- What the loop does with a digit that has taken in its carries: the new digit, and what goes into
the next one in two steps. -/
def Splits (b : Nat) (w mask h : Int8) : Prop :=
  ∀ n < b + 1, let d := Int8.ofNat n
    (d >>> w).toInt + ((d &&& mask) >>> h).toInt = (if 2 * n < b then 0 else 1 : Nat) ∧
      0 ≤ (d >>> w).toInt ∧ 0 ≤ ((d &&& mask) >>> h).toInt ∧
      ((d &&& mask) - (((d &&& mask) >>> h) <<< w)).toInt = if 2 * n < b then (n : Int) else n - b

instance (b : Nat) (w mask h : Int8) : Decidable (Splits b w mask h) :=
  inferInstanceAs (Decidable (∀ n < b + 1, _))

theorem splits_window3 : Splits 8 3 7 2 := by decide

theorem splits_window5 : Splits 32 5 31 4 := by decide

theorem toInt_add_of_small {x y : Int8} (h0 : 0 ≤ x.toInt + y.toInt) (h : x.toInt + y.toInt < 128) :
    (x + y).toInt = x.toInt + y.toInt := by
  rw [Int8.toInt_add]
  exact Int.bmod_eq_of_le (by change -128 ≤ _; omega) (by change _ < 128; omega)

theorem eq_ofNat {x : Int8} {n : Nat} (h : x.toInt = n) : x = Int8.ofNat n := by
  have hlt := x.toInt_lt
  refine Int8.toInt_inj.1 ?_
  rw [Int8.toInt_ofNat', h, Int.bmod_eq_of_le (by change -128 ≤ _; omega)
    (by change (n : Int) < 128; omega)]

/-- **The loop of `sc25519_window3` and `sc25519_window5` recodes.** -/
theorem makeSigned_eq {b : Nat} {w mask h : Int8} (hsplit : Splits b w mask h) (hb : b < 127) :
    ∀ {carry d : Int8} {r : List Int8} {d₀ c : Nat} {l : List Nat},
      d.toInt + carry.toInt = ((d₀ + c : Nat) : Int) → c ≤ 1 → d₀ < b →
        r.map Int8.toInt = l.map Nat.cast → (∀ x ∈ l, x < b) →
          (makeSigned w mask h carry d r).map Int8.toInt = recode b c d₀ l
  | carry, d, [], d₀, c, [], hd, hc, hd₀, _, _ => by
    rw [makeSigned, recode, List.map_singleton, toInt_add_of_small (by omega) (by omega), hd]
  | carry, d, e :: r, d₀, c, e₀ :: l, hd, hc, hd₀, hr, hl => by
    obtain ⟨he, hr⟩ := List.cons.inj hr
    have he₀ : e₀ < b := hl e₀ (by simp)
    have hl' : ∀ x ∈ l, x < b := fun x hx => hl x (List.mem_cons_of_mem e₀ hx)
    have hsum : d + carry = Int8.ofNat (d₀ + c) :=
      eq_ofNat (by rw [toInt_add_of_small (by omega) (by omega), hd])
    obtain ⟨hcarry, hq, hc', hdigit⟩ := hsplit (d₀ + c) (by omega)
    rw [← hsum] at hcarry hq hc' hdigit
    have hnext : ∀ {c' : Nat}, c' ≤ 1 →
        ((d + carry) >>> w).toInt + (((d + carry) &&& mask) >>> h).toInt = c' →
          (makeSigned w mask h (((d + carry) &&& mask) >>> h) (e + ((d + carry) >>> w)) r).map
            Int8.toInt = recode b c' e₀ l := by
      intro c' hle heq
      refine makeSigned_eq hsplit hb ?_ hle he₀ hr hl'
      rw [toInt_add_of_small (by omega) (by omega), he]
      omega
    rw [makeSigned, recode, List.map_cons, hdigit]
    split
    · rename_i hlt
      rw [hnext (Nat.zero_le 1) (by rw [hcarry, if_pos hlt])]
    · rename_i hlt
      rw [hnext le_rfl (by rw [hcarry, if_neg hlt])]
  | _, _, [], _, _, _ :: _, _, _, _, hr, _ => by simp at hr
  | _, _, _ :: _, _, _, [], _, _, _, hr, _ => by simp at hr

/-- The loop, from the start. -/
theorem makeSigned_spec {b : Nat} {w mask h : Int8} (hsplit : Splits b w mask h) (hb : b < 127)
    {r : List Int8} {l : List Nat} (hr : r.map Int8.toInt = l.map Nat.cast) (hl : ∀ d ∈ l, d < b)
    (hne : l ≠ []) :
    let x := (makeSigned w mask h 0 (r.headD 0) r.tail).map Int8.toInt
    x.length = l.length ∧ evalDigits b x = Nat.ofDigits b l ∧
      (∀ d ∈ x.dropLast, -(b : Int) ≤ 2 * d ∧ 2 * d < b) ∧
      ∃ c ≤ 1, x.getLastD 0 = ((l.getLastD 0 + c : Nat) : Int) := by
  obtain ⟨d₀, l, rfl⟩ := List.exists_cons_of_ne_nil hne
  cases r with
  | nil => simp at hr
  | cons d r =>
    obtain ⟨hd, hr⟩ := List.cons.inj hr
    have hd₀ : d₀ < b := hl d₀ (by simp)
    have hl' : ∀ x ∈ l, x < b := fun x hx => hl x (List.mem_cons_of_mem d₀ hx)
    have hstart : d.toInt + (0 : Int8).toInt = ((d₀ + 0 : Nat) : Int) := by
      rw [hd]
      rfl
    have heq := makeSigned_eq hsplit hb hstart (Nat.zero_le 1) hd₀ hr hl'
    obtain ⟨hbound, hlast⟩ := recode_bounds (Nat.zero_le 1) hd₀ hl'
    rw [List.headD_cons, List.tail_cons, heq]
    exact ⟨length_recode b 0 d₀ l, evalDigits_recode b 0 d₀ l, hbound, hlast⟩

/-- The last digit is the number without the others. -/
theorem getLastD_eq {b n : Nat} {l : List Nat} (hb : 1 < b) (hlen : l.length = n + 1) (hl : ∀ d ∈ l, d < b) :
    l.getLastD 0 = Nat.ofDigits b l / b ^ n := by
  have hn : n < l.length := by omega
  have hlast : l.getLastD 0 = l[n] := by
    rw [List.getLastD_eq_getLast?, List.getLast?_eq_getElem?, hlen, Nat.add_sub_cancel,
      List.getElem?_eq_getElem hn, Option.getD_some]
  have hlt : Nat.ofDigits b l / b ^ n < b := by
    have hpow := Nat.ofDigits_lt_base_pow_length hb hl
    rw [hlen, pow_succ] at hpow
    exact Nat.div_lt_of_lt_mul hpow
  rw [hlast, getElem_eq_digit hl hn, digit, Nat.mod_eq_of_lt hlt]

/-- **`sc25519_window3`.** -/
theorem window3_spec {s : Sc25519} (h : Bytes s.v) :
    let x := (window3 s).map Int8.toInt
    x.length = 85 ∧ evalDigits 8 x = (value s % 2 ^ 255 : Nat) ∧
      (∀ d ∈ x.dropLast, -4 ≤ d ∧ d < 4) ∧
      ∃ c ≤ 1, x.getLastD 0 = ((value s % 2 ^ 255 / 2 ^ 252 + c : Nat) : Int) := by
  obtain ⟨l, hl, hlen, hlt, hvalue⟩ := window3Digits_spec h
  obtain ⟨hlen', heval, hbound, c, hc, hlast⟩ := makeSigned_spec splits_window3 (by decide) hl hlt
    (List.ne_nil_of_length_pos (by omega))
  rw [getLastD_eq (n := 84) (by decide) hlen hlt, hvalue] at hlast
  rw [hvalue] at heval
  exact ⟨hlen'.trans hlen, heval, fun d hd => by have := hbound d hd; omega, c, hc, hlast⟩

/-- **`sc25519_window5`.** -/
theorem window5_spec {s : Sc25519} (h : Bytes s.v) :
    let x := (window5 s).map Int8.toInt
    x.length = 51 ∧ evalDigits 32 x = (value s % 2 ^ 255 : Nat) ∧
      (∀ d ∈ x.dropLast, -16 ≤ d ∧ d < 16) ∧
      ∃ c ≤ 1, x.getLastD 0 = ((value s % 2 ^ 255 / 2 ^ 250 + c : Nat) : Int) := by
  obtain ⟨l, hl, hlen, hlt, hvalue⟩ := window5Digits_spec h
  obtain ⟨hlen', heval, hbound, c, hc, hlast⟩ := makeSigned_spec splits_window5 (by decide) hl hlt
    (List.ne_nil_of_length_pos (by omega))
  rw [getLastD_eq (n := 50) (by decide) hlen hlt, hvalue] at hlast
  rw [hvalue] at heval
  exact ⟨hlen'.trans hlen, heval, fun d hd => by have := hbound d hd; omega, c, hc, hlast⟩

/-! ## Two scalars, interleaved -/

theorem toNat_interleaveBits {k : UInt32} (hk : k.toNat < 32) (x y : UInt32) :
    (interleaveBits k x y).toNat = x.toNat / 2 ^ k.toNat % 4 + 4 * (y.toNat / 2 ^ k.toNat % 4) := by
  have h3 : (3 : UInt32).toNat = 2 ^ 2 - 1 := rfl
  have hx := toNat_shr h3 hk x
  have hy := toNat_shr h3 hk y
  have hxlt : (shr 3 x k).toNat < 2 ^ 2 := by
    rw [hx]
    exact Nat.mod_lt _ (by decide)
  have hshift : (shr 3 y k <<< 2).toNat = 2 ^ 2 * (shr 3 y k).toNat := by
    rw [UInt32.toNat_shiftLeft, Nat.shiftLeft_eq, Nat.mul_comm]
    refine Nat.mod_eq_of_lt ?_
    change 2 ^ 2 * _ < _
    omega
  rw [interleaveBits, UInt32.toNat_xor, hshift, xor_eq_add hxlt, hx, hy, Nat.add_comm]
  rfl

/-- **`sc25519_2interleave2`** pairs the digits in base `4` of the two scalars. -/
theorem interleave2_spec {s1 s2 : Sc25519} (h1 : Bytes s1.v) (h2 : Bytes s2.v) :
    (interleave2 s1 s2).map UInt8.toNat = (List.range 127).map fun k =>
      digit 4 (value s1) k + 4 * digit 4 (value s2) k := by
  let F := fun k => digit 4 (value s1) k + 4 * digit 4 (value s2) k
  have hword : ∀ {s : Sc25519}, Bytes s.v → ∀ i < 32, (s.v.getD i 0).toNat = digit 256 (value s) i := by
    intro s h i hi
    have hlen : i < (nats s.v).length := by rwa [List.length_map, s.length_v]
    rw [value, ← getElem_eq_digit h.nats_lt hlen, toNat_getD, List.getD_eq_getElem?_getD,
      List.getElem?_eq_getElem hlen, Option.getD_some]
  have hbits : ∀ {j : Nat} {k : UInt32}, j < 4 → k.toNat = 2 * j → ∀ i < 32,
      (interleaveBits k (s1.v.getD i 0) (s2.v.getD i 0)).toUInt8.toNat = F (4 * i + j) := by
    intro j k hj hk i hi
    have hpow : 2 ^ k.toNat = 4 ^ j := by
      rw [hk, pow_mul]
      rfl
    have hdigit : ∀ n, digit 256 n i / 4 ^ j % 4 = digit 4 n (4 * i + j) := fun n =>
      digit_digit (b := 4) hj n i
    have hlt : F (4 * i + j) < 256 := by
      have hd1 := digit_lt (by decide : 0 < 4) (value s1) (4 * i + j)
      have hd2 := digit_lt (by decide : 0 < 4) (value s2) (4 * i + j)
      simp only [F]
      omega
    rw [UInt32.toNat_toUInt8, toNat_interleaveBits (by omega), hword h1 i hi, hword h2 i hi, hpow,
      hdigit, hdigit]
    exact Nat.mod_eq_of_lt hlt
  have hgroup : ∀ i < 31, [0, 2, 4, 6].map (fun k =>
      (interleaveBits k (s1.v.getD i 0) (s2.v.getD i 0)).toUInt8.toNat) =
        [F (4 * i), F (4 * i + 1), F (4 * i + 2), F (4 * i + 3)] := by
    intro i hi
    simp only [List.map_cons, List.map_nil]
    rw [hbits (j := 0) (by decide) rfl i (by omega), hbits (j := 1) (by decide) rfl i (by omega),
      hbits (j := 2) (by decide) rfl i (by omega), hbits (j := 3) (by decide) rfl i (by omega)]
    rfl
  have htop : [0, 2, 4].map (fun k =>
      (interleaveBits k (s1.v.getD 31 0) (s2.v.getD 31 0)).toUInt8.toNat) =
        [F 124, F 125, F 126] := by
    simp only [List.map_cons, List.map_nil]
    rw [hbits (j := 0) (by decide) rfl 31 (by decide), hbits (j := 1) (by decide) rfl 31 (by decide),
      hbits (j := 2) (by decide) rfl 31 (by decide)]
  have hflat : (List.range 127).map F = ((List.range 31).flatMap fun i =>
      [F (4 * i), F (4 * i + 1), F (4 * i + 2), F (4 * i + 3)]) ++ [F 124, F 125, F 126] := rfl
  rw [hflat, ← htop, interleave2, List.map_map, List.map_append, List.map_map, List.map_flatMap]
  refine congrArg (· ++ _) (List.flatMap_congr fun i hi => ?_)
  rw [← hgroup i (List.mem_range.1 hi), List.map_map]
  rfl

theorem interleave2_digits {s1 s2 : Sc25519} (h1 : Bytes s1.v) (h2 : Bytes s2.v) :
    let x := (interleave2 s1 s2).map UInt8.toNat
    x.length = 127 ∧ (∀ d ∈ x, d < 16) ∧
      x.map (· % 4) = (List.range 127).map (digit 4 (value s1)) ∧
      x.map (· / 4) = (List.range 127).map (digit 4 (value s2)) := by
  have hlt : ∀ n k, digit 4 n k < 4 := digit_lt (by decide)
  rw [interleave2_spec h1 h2]
  refine ⟨by rw [List.length_map, List.length_range], ?_, ?_, ?_⟩
  · intro d hd
    obtain ⟨k, -, rfl⟩ := List.mem_map.1 hd
    have hd1 := hlt (value s1) k
    have hd2 := hlt (value s2) k
    omega
  · rw [List.map_map]
    refine List.map_congr_left fun k _ => ?_
    rw [Function.comp_apply, Nat.add_mul_mod_self_left, Nat.mod_eq_of_lt (hlt _ _)]
  · rw [List.map_map]
    refine List.map_congr_left fun k _ => ?_
    rw [Function.comp_apply, Nat.add_mul_div_left _ _ (by decide), Nat.div_eq_of_lt (hlt _ _),
      Nat.zero_add]

/-! ## Reduced scalars -/

/-- A bound on the last number and on the others. -/
theorem forall_mem_of_dropLast {Q : Int → Prop} {x : List Int} (hinit : ∀ d ∈ x.dropLast, Q d)
    (hlast : Q (x.getLastD 0)) : ∀ d ∈ x, Q d := by
  intro d hd
  have hne : x ≠ [] := List.ne_nil_of_mem hd
  rw [← List.dropLast_append_getLast hne] at hd
  rcases List.mem_append.1 hd with hd | hd
  · exact hinit d hd
  · rw [List.getLastD_eq_getLast?, List.getLast?_eq_some_getLast hne] at hlast
    rw [List.mem_singleton.1 hd]
    exact hlast

theorem window3_small {s : Sc25519} (h : Bytes s.v) (hlt : value s < 2 ^ 253) :
    let x := (window3 s).map Int8.toInt
    x.length = 85 ∧ evalDigits 8 x = value s ∧ ∀ d ∈ x, -4 ≤ d ∧ d < 4 := by
  obtain ⟨hlen, heval, hbound, c, hc, hlast⟩ := window3_spec h
  have hmod : value s % 2 ^ 255 = value s := Nat.mod_eq_of_lt (by omega)
  rw [hmod] at heval hlast
  refine ⟨hlen, heval, forall_mem_of_dropLast hbound ?_⟩
  rw [hlast]
  omega

theorem window5_small {s : Sc25519} (h : Bytes s.v) (hlt : value s < 2 ^ 253) :
    let x := (window5 s).map Int8.toInt
    x.length = 51 ∧ evalDigits 32 x = value s ∧ ∀ d ∈ x, -16 ≤ d ∧ d < 16 := by
  obtain ⟨hlen, heval, hbound, c, hc, hlast⟩ := window5_spec h
  have hmod : value s % 2 ^ 255 = value s := Nat.mod_eq_of_lt (by omega)
  rw [hmod] at heval hlast
  refine ⟨hlen, heval, forall_mem_of_dropLast hbound ?_⟩
  rw [hlast]
  omega

theorem Reduced.lt_two_pow {s : Sc25519} (h : Reduced s) : value s < 2 ^ 253 := by
  have hlt := h.lt
  rw [order_eq] at hlt
  omega

/-- The digits of both scalars, read back. -/
theorem interleave2_value {s1 s2 : Sc25519} (h1 : Reduced s1) (h2 : Reduced s2) :
    Nat.ofDigits 4 (((interleave2 s1 s2).map UInt8.toNat).map (· % 4)) = value s1 ∧
      Nat.ofDigits 4 (((interleave2 s1 s2).map UInt8.toNat).map (· / 4)) = value s2 := by
  obtain ⟨-, -, hlow, hhigh⟩ := interleave2_digits h1.bytes h2.bytes
  have hlt : ∀ {s : Sc25519}, Reduced s → value s % 4 ^ 127 = value s := by
    intro s h
    have := h.lt_two_pow
    exact Nat.mod_eq_of_lt (by omega)
  rw [hlow, hhigh, ofDigits_map_digit, ofDigits_map_digit, hlt h1, hlt h2]
  exact ⟨rfl, rfl⟩

/-! ## Result -/

/-- **Windows.**  Of reduced scalars the signed digits of both window functions are in range, the last
one included, and stand for the scalar, and the interleaved digits, which are below 16, stand for
both scalars. -/
theorem scalar_windows {s1 s2 : Sc25519} (h1 : Reduced s1) (h2 : Reduced s2) :
    ((window3 s1).length = 85 ∧ evalDigits 8 ((window3 s1).map Int8.toInt) = value s1 ∧
        ∀ d ∈ (window3 s1).map Int8.toInt, -4 ≤ d ∧ d < 4) ∧
      ((window5 s1).length = 51 ∧ evalDigits 32 ((window5 s1).map Int8.toInt) = value s1 ∧
        ∀ d ∈ (window5 s1).map Int8.toInt, -16 ≤ d ∧ d < 16) ∧
      ((interleave2 s1 s2).length = 127 ∧ ∀ r ∈ interleave2 s1 s2, r < 16) ∧
      Nat.ofDigits 4 ((interleave2 s1 s2).map fun r => r.toNat % 4) = value s1 ∧
      Nat.ofDigits 4 ((interleave2 s1 s2).map fun r => r.toNat / 4) = value s2 := by
  obtain ⟨hlen3, heval3, hbound3⟩ := window3_small h1.bytes h1.lt_two_pow
  obtain ⟨hlen5, heval5, hbound5⟩ := window5_small h1.bytes h1.lt_two_pow
  obtain ⟨hlen, hbound, -⟩ := interleave2_digits h1.bytes h2.bytes
  obtain ⟨hlow, hhigh⟩ := interleave2_value h1 h2
  rw [List.map_map] at hlow hhigh
  rw [List.length_map] at hlen3 hlen5 hlen
  have hlt : ∀ r ∈ interleave2 s1 s2, r < 16 := fun r hr =>
    UInt8.lt_iff_toNat_lt.2 (hbound r.toNat (List.mem_map_of_mem hr))
  exact ⟨⟨hlen3, heval3, hbound3⟩, ⟨hlen5, heval5, hbound5⟩, ⟨hlen, hlt⟩, hlow, hhigh⟩

theorem scalar_windows_largest :
    ((window3 largestScalar).length = 85 ∧
        evalDigits 8 ((window3 largestScalar).map Int8.toInt) = value largestScalar ∧
        ∀ d ∈ (window3 largestScalar).map Int8.toInt, -4 ≤ d ∧ d < 4) ∧
      ((window5 largestScalar).length = 51 ∧
        evalDigits 32 ((window5 largestScalar).map Int8.toInt) = value largestScalar ∧
        ∀ d ∈ (window5 largestScalar).map Int8.toInt, -16 ≤ d ∧ d < 16) ∧
      ((interleave2 largestScalar risingScalar).length = 127 ∧
        ∀ r ∈ interleave2 largestScalar risingScalar, r < 16) ∧
      Nat.ofDigits 4 ((interleave2 largestScalar risingScalar).map fun r => r.toNat % 4) =
        value largestScalar ∧
      Nat.ofDigits 4 ((interleave2 largestScalar risingScalar).map fun r => r.toNat / 4) =
        value risingScalar :=
  scalar_windows reduced_largestScalar reduced_risingScalar

end Sc25519
end Zedboard
