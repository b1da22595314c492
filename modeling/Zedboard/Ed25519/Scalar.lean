import Zedboard.Ed25519.Sc25519
import Zedboard.Lib.Barrett
import Zedboard.Lib.Radix

/-!
# What the scalar operations compute

`barrett_reduce` takes sixty-four words of a byte each to the remainder modulo the group order.  The
products below word 31 are not computed, no sum overflows a word, and the two subtractions at the
end are enough: `r < 0`, which a comment of the source asks about, cannot happen.
-/

set_option autoImplicit false

namespace Zedboard
namespace Sc25519

/-- The order of the base point. -/
@[irreducible] def order : Nat := 2 ^ 252 + 27742317777372353535851937790883648493

theorem order_eq : order = 2 ^ 252 + 27742317777372353535851937790883648493 := by
  rw [order]

/-- The number in the words. -/
def value (x : Sc25519) : Nat := Nat.ofDigits 256 (nats x.v)

/-- Every word is a byte. -/
def Bytes (v : List UInt32) : Prop := ∀ d ∈ v, d.toNat < 256

instance (v : List UInt32) : Decidable (Bytes v) :=
  List.decidableBAll (fun d : UInt32 => d.toNat < 256) v

theorem Bytes.nats_lt {v : List UInt32} (h : Bytes v) : ∀ d ∈ nats v, d < 256 := by
  intro d hd
  obtain ⟨w, hw, rfl⟩ := List.mem_map.1 hd
  exact h w hw

theorem Bytes.le {v : List UInt32} (h : Bytes v) :
    LimbsLe (nats v) (List.replicate v.length 255) := by
  rw [← List.map_const']
  exact List.forall₂_map_left_iff.2 (List.forall₂_map_right_iff.2
    (List.forall₂_same.2 fun w hw => Nat.le_of_lt_succ (h w hw)))

theorem Bytes.ofDigits_lt {v : List UInt32} (h : Bytes v) :
    Nat.ofDigits 256 (nats v) < 256 ^ v.length := by
  have hlt := Nat.ofDigits_lt_base_pow_length (b := 256) (by decide) h.nats_lt
  rwa [List.length_map] at hlt

/-! ## Borrows -/

theorem lt_eq {a b : UInt32} (ha : a.toNat < 2 ^ 16) (hb : b.toNat < 2 ^ 16) :
    lt a b = if a.toNat < b.toNat then 1 else 0 := by
  refine UInt32.toNat_inj.1 ?_
  rw [lt, UInt32.toNat_shiftRight]
  refine (Nat.shiftRight_eq_div_pow _ 31).trans ?_
  split
  · rename_i hlt
    rw [UInt32.toNat_sub]
    exact show _ / 2 ^ 31 = 1 by omega
  · rename_i hge
    rw [UInt32.toNat_sub_of_le _ _ (Nat.not_lt.1 hge)]
    exact Nat.div_eq_of_lt (by omega)

/-- One word of a difference. -/
theorem borrow_step {r pb : UInt32} (hr : r.toNat < 256) (hpb : pb.toNat ≤ 256) :
    (r - pb + (lt r pb <<< 8)).toNat < 256 ∧ (lt r pb).toNat ≤ 1 ∧
      (r - pb + (lt r pb <<< 8)).toNat + pb.toNat = r.toNat + 256 * (lt r pb).toNat := by
  rw [lt_eq (by omega) (by omega)]
  split
  · rename_i hlt
    have hsum : (r - pb + ((1 : UInt32) <<< 8)).toNat = r.toNat + 256 - pb.toNat := by
      rw [UInt32.toNat_add, UInt32.toNat_sub, show ((1 : UInt32) <<< 8).toNat = 256 by decide]
      omega
    rw [hsum, show (1 : UInt32).toNat = 1 from rfl]
    omega
  · rename_i hge
    have hsum : (r - pb + ((0 : UInt32) <<< 8)).toNat = r.toNat - pb.toNat := by
      rw [UInt32.toNat_add, UInt32.toNat_sub_of_le _ _ (Nat.not_lt.1 hge),
        show ((0 : UInt32) <<< 8).toNat = 0 by decide]
      omega
    rw [hsum, show (0 : UInt32).toNat = 0 from rfl]
    omega

/-- **The loop subtracts**, and its last borrow says whether the difference is negative. -/
theorem borrowLoop_spec : ∀ {pb : UInt32} {r s : List UInt32}, pb.toNat ≤ 1 → Bytes r → Bytes s →
    r.length = s.length →
      Bytes (borrowLoop pb r s).1 ∧ (borrowLoop pb r s).2.toNat ≤ 1 ∧
        Nat.ofDigits 256 (nats (borrowLoop pb r s).1) + Nat.ofDigits 256 (nats s) + pb.toNat =
          Nat.ofDigits 256 (nats r) + 256 ^ r.length * (borrowLoop pb r s).2.toNat
  | pb, [], [], hpb, _, _, _ => by
    refine ⟨fun d hd => by simp [borrowLoop] at hd, hpb, ?_⟩
    simp [borrowLoop]
  | pb, r :: rs, s :: ss, hpb, hr, hs, hlen => by
    have hr0 : r.toNat < 256 := hr r (by simp)
    have hs0 : s.toNat < 256 := hs s (by simp)
    have hsum : (pb + s).toNat = pb.toNat + s.toNat := toNat_add_of_lt (by omega)
    obtain ⟨hdigit, hborrow, hstep⟩ := borrow_step hr0 (show (pb + s).toNat ≤ 256 by omega)
    obtain ⟨ih1, ih2, ih3⟩ := borrowLoop_spec hborrow
      (fun d hd => hr d (List.mem_cons_of_mem r hd)) (fun d hd => hs d (List.mem_cons_of_mem s hd))
      (Nat.succ.inj hlen)
    refine ⟨?_, ih2, ?_⟩
    · intro d hd
      rcases List.mem_cons.1 hd with rfl | hd
      · exact hdigit
      · exact ih1 d hd
    · simp only [borrowLoop, nats, List.map_cons, Nat.ofDigits_cons, List.length_cons, pow_succ']
        at ih3 ⊢
      rw [hsum] at hstep
      linear_combination 256 * ih3 + hstep

/-! ## One subtraction of the modulus -/

theorem ofDigits_m : Nat.ofDigits 256 (nats m) = order := by
  rw [order_eq]
  decide

theorem bytes_m : Bytes m := by decide

/-- The mask chooses between the words and their differences. -/
theorem zipWith_choose {b : UInt32} (hb : b.toNat ≤ 1) : ∀ {x y : List UInt32},
    x.length = y.length →
      x.zipWith (fun x y => x ^^^ ((b - 1) &&& (x ^^^ y))) y = if b = 0 then y else x
  | [], [], _ => by simp
  | x :: xs, y :: ys, h => by
    have ih := zipWith_choose hb (Nat.succ.inj h)
    rw [List.zipWith_cons_cons, ih]
    by_cases h0 : b = 0
    · have hones : (0 : UInt32) - 1 = -1 := by decide
      rw [if_pos h0, if_pos h0, h0, hones, UInt32.neg_one_and, ← UInt32.xor_assoc, UInt32.xor_self,
        UInt32.zero_xor]
    · have h1 : b = 1 := UInt32.toNat_inj.1 (show b.toNat = 1 by
        have hne : b.toNat ≠ 0 := fun h => h0 (UInt32.toNat_inj.1 h)
        omega)
      rw [if_neg h0, if_neg h0, h1, UInt32.sub_self, UInt32.zero_and, UInt32.xor_zero]

/-- **`reduce_add_sub`** subtracts the modulus if it can be subtracted. -/
theorem reduceAddSub_spec {x : Sc25519} (h : Bytes x.v) :
    Bytes (reduceAddSub x).v ∧ value (reduceAddSub x) = condSub order (value x) := by
  have hlen : x.v.length = m.length := x.length_v
  obtain ⟨hbytes, hborrow, hvalue⟩ := borrowLoop_spec (show (0 : UInt32).toNat ≤ 1 by decide) h
    bytes_m hlen
  have hdiff := hbytes.ofDigits_lt
  have hx : value x < 256 ^ 32 := x.length_v ▸ h.ofDigits_lt
  have hlenDiff : (borrowLoop 0 x.v m).1.length = 32 := by
    rw [length_borrowLoop, x.length_v]
    rfl
  have ht : (borrowLoop 0 x.v m).1.map (fun w => w.toUInt8.toUInt32) = (borrowLoop 0 x.v m).1 := by
    conv_rhs => rw [← List.map_id (borrowLoop 0 x.v m).1]
    refine List.map_congr_left fun w hw => UInt32.toNat_inj.1 ?_
    rw [UInt8.toNat_toUInt32, UInt32.toNat_toUInt8, Nat.mod_eq_of_lt (hbytes w hw), id]
  have hv : (reduceAddSub x).v =
      if (borrowLoop 0 x.v m).2 = 0 then (borrowLoop 0 x.v m).1 else x.v := by
    rw [← zipWith_choose hborrow (x.length_v.trans hlenDiff.symm)]
    conv_rhs => rw [← ht]
    rfl
  rw [ofDigits_m, x.length_v, show (0 : UInt32).toNat = 0 from rfl, Nat.add_zero] at hvalue
  rw [hlenDiff] at hdiff
  have horder := order_eq
  by_cases h0 : (borrowLoop 0 x.v m).2 = 0
  · rw [h0, show (0 : UInt32).toNat = 0 from rfl, Nat.mul_zero, Nat.add_zero] at hvalue
    rw [value, hv, if_pos h0, condSub]
    refine ⟨hbytes, ?_⟩
    rw [value, if_pos (by omega)]
    omega
  · have h1 : (borrowLoop 0 x.v m).2.toNat = 1 := by
      have hne : (borrowLoop 0 x.v m).2.toNat ≠ 0 := fun h => h0 (UInt32.toNat_inj.1 h)
      omega
    rw [h1] at hvalue
    rw [value, hv, if_neg h0, condSub]
    refine ⟨h, ?_⟩
    rw [if_neg]
    · rfl
    · rw [value]
      omega

/-! ## The estimate -/

theorem ofDigits_mu : Nat.ofDigits 256 (nats mu) * order +
    1627715501170711445284395025044413883736156588369414752970002579683115011841 =
      256 ^ 31 * 256 ^ 33 := by
  rw [order_eq]
  decide

/-- Bounds for the sums `q2`. -/
def q2Cap : List Nat :=
  accumulate (List.replicate 66 0) (products (31 ≤ ·) (nats mu) (List.replicate 33 255))

set_option maxRecDepth 20000 in
theorem q2Cap_eq : q2Cap =
  [0, 0, 0, 0, 0, 0, 0, 0, 0, 0, 0, 0, 0, 0, 0, 0, 0, 0, 0, 0, 0, 0, 0, 0, 0, 0, 0, 0, 0, 0, 0,
    1383375, 1387200, 1380315, 1375470, 1364250, 1361700, 1320135, 1261740, 1221960, 1161525,
    1118940, 1108485, 1083240, 1081200, 1057485, 1049070, 1047540, 1039125, 979200, 914175,
    849150, 784125, 719100, 654075, 589050, 524025, 459000, 393975, 328950, 263925, 198900,
    133875, 68850, 3825, 0] := by
  decide

set_option maxRecDepth 20000 in
theorem q2Cap_lt : ∀ d ∈ q2Cap, d < 2 ^ 32 := by
  rw [q2Cap_eq]
  decide

theorem nats_replicate_zero (n : Nat) : nats (List.replicate n 0) = List.replicate n 0 := by
  rw [nats, List.map_replicate]
  rfl

/-- The sums `q2` are right, as far as they are computed. -/
theorem nats_q2Words {x : List UInt32} (h : Bytes x) (hlen : x.length = 64) :
    nats (q2Words x) = accumulate (List.replicate 66 0)
        (products (31 ≤ ·) (nats mu) (nats (x.drop 31))) ∧
      LimbsLe (nats (q2Words x)) q2Cap := by
  have hdrop : (x.drop 31).take 33 = x.drop 31 := by
    rw [List.take_of_length_le]
    rw [List.length_drop]
    omega
  have hhigh : LimbsLe (nats (x.drop 31)) (List.replicate 33 255) := by
    have hle := Bytes.le (v := x.drop 31) fun d hd => h d (List.mem_of_mem_drop hd)
    rwa [List.length_drop, hlen] at hle
  have hzero : LimbsLe (nats (List.replicate 66 0)) (List.replicate 66 0) := by
    rw [nats_replicate_zero]
    exact LimbsLe.refl _
  have hsums := nats_accumulate (p := (31 ≤ ·)) hzero (LimbsLe.refl (nats mu)) hhigh q2Cap_lt
  rw [nats_replicate_zero] at hsums
  rw [q2Words, hdrop]
  exact hsums

set_option maxRecDepth 20000 in
/-- What is left out is less than the weight of word 33. -/
theorem low_products_lt {x : List Nat} (h : LimbsLe x (List.replicate 33 255)) :
    ((products (fun k => !decide (31 ≤ k)) (nats mu) x).map fun u => 256 ^ u.1 * u.2).sum <
      256 ^ 33 := by
  have hindex : ∀ u ∈ products (fun k => !decide (31 ≤ k)) (nats mu) x,
      u.1 < (List.replicate 31 0).length := by
    intro u hu
    have hlow := (products_index hu).2
    simp only [Bool.not_eq_true', decide_eq_false_iff_not] at hlow
    rw [List.length_replicate]
    omega
  have hsum := ofDigits_accumulate 256 _ (List.replicate 31 0) hindex
  rw [ofDigits_replicate_zero, Nat.zero_add] at hsum
  have hmax : Nat.ofDigits 256 (accumulate (List.replicate 31 0)
      (products (fun k => !decide (31 ≤ k)) (nats mu) (List.replicate 33 255))) < 256 ^ 33 := by
    decide
  rw [← hsum]
  exact Nat.lt_of_le_of_lt
    (ofDigits_mono 256 (accumulate_le (products_le (LimbsLe.refl _) h) (LimbsLe.refl _))) hmax

/-- The two carries and the shift, on numbers. -/
def q3Nat (t : List Nat) : List Nat :=
  (t.set 33 (t.getD 33 0 + (t.getD 32 0 + t.getD 31 0 / 256) / 256)).drop 33

theorem q3Nat_le {t u : List Nat} (h : LimbsLe t u) : LimbsLe (q3Nat t) (q3Nat u) := by
  refine List.forall₂_drop 33 (h.set 33 (Nat.add_le_add (h.getD 33) (Nat.div_le_div_right
    (Nat.add_le_add (h.getD 32) (Nat.div_le_div_right (h.getD 31))))))

theorem nats_q3Words {t : List UInt32} (hlen : t.length = 66) (h : LimbsLe (nats t) q2Cap) :
    nats (q3Words t) = q3Nat (nats t) := by
  have h31 := h.getD 31
  have h32 := h.getD 32
  have h33 := h.getD 33
  have hcap : q2Cap.getD 31 0 / 256 + q2Cap.getD 32 0 < 2 ^ 32 ∧
      q2Cap.getD 33 0 + (q2Cap.getD 32 0 + q2Cap.getD 31 0 / 256) / 256 < 2 ^ 32 := by
    rw [q2Cap_eq]
    decide
  have hfirst : (t.getD 32 0 + (t.getD 31 0 >>> 8)).toNat =
      (nats t).getD 32 0 + (nats t).getD 31 0 / 256 := by
    rw [toNat_add_of_lt, toNat_shiftRight_8, toNat_getD, toNat_getD]
    rw [toNat_shiftRight_8, toNat_getD, toNat_getD]
    omega
  have hget32 : (t.set 32 (t.getD 32 0 + (t.getD 31 0 >>> 8))).getD 32 0 =
      t.getD 32 0 + (t.getD 31 0 >>> 8) := by
    simp [hlen]
  have hget33 : (t.set 32 (t.getD 32 0 + (t.getD 31 0 >>> 8))).getD 33 0 = t.getD 33 0 := by
    simp
  have hsecond : (t.getD 33 0 + ((t.getD 32 0 + (t.getD 31 0 >>> 8)) >>> 8)).toNat =
      (nats t).getD 33 0 + ((nats t).getD 32 0 + (nats t).getD 31 0 / 256) / 256 := by
    rw [toNat_add_of_lt, toNat_shiftRight_8, hfirst, toNat_getD]
    rw [toNat_shiftRight_8, hfirst, toNat_getD]
    omega
  rw [q3Words, q3Nat]
  simp only [hget32, hget33]
  rw [nats, List.map_drop, List.map_set, hsecond, List.map_set, List.drop_set, List.drop_set,
    List.drop_set]
  simp

/-- The shift drops what is below word 33. -/
theorem ofDigits_q3Nat {t : List Nat} (hlen : t.length = 66) :
    ∃ e < 256 ^ 2, Nat.ofDigits 256 (t.drop 31) = 256 ^ 2 * Nat.ofDigits 256 (q3Nat t) + e := by
  have hcons : ∀ k < 66, t.drop k = t.getD k 0 :: t.drop (k + 1) := by
    intro k hk
    rw [List.getD_eq_getElem?_getD, List.getElem?_eq_getElem (by omega), Option.getD_some,
      List.drop_eq_getElem_cons (by omega)]
  have h33 : t.drop 33 = t.getD 33 0 :: t.drop 34 := hcons 33 (by decide)
  have hq3 : q3Nat t =
      (t.getD 33 0 + (t.getD 32 0 + t.getD 31 0 / 256) / 256) :: t.drop 34 := by
    rw [q3Nat, List.drop_set, if_neg (lt_irrefl 33), Nat.sub_self, h33, List.set_cons_zero]
  refine ⟨(t.getD 31 0 + 256 * t.getD 32 0) % 256 ^ 2, Nat.mod_lt _ (by decide), ?_⟩
  rw [hq3, hcons 31 (by decide), hcons 32 (by decide), h33, Nat.ofDigits_cons,
    Nat.ofDigits_cons, Nat.ofDigits_cons, Nat.ofDigits_cons]
  omega

/-- **The quotient** is at most two less than it should be. -/
theorem quotient_spec {x : List UInt32} (h : Bytes x) (hlen : x.length = 64) :
    let q := Nat.ofDigits 256 (nats (q3Words (q2Words x)))
    q * order ≤ Nat.ofDigits 256 (nats x) ∧
      Nat.ofDigits 256 (nats x) < (q + 3) * order := by
  intro q
  obtain ⟨hq2, hcap⟩ := nats_q2Words h hlen
  have hhigh := Bytes.le (v := x.drop 31) fun d hd => h d (List.mem_of_mem_drop hd)
  rw [List.length_drop, hlen] at hhigh
  have hlenq2 : (q2Words x).length = 66 := by
    rw [q2Words, length_accumulate, List.length_replicate]
  have hlennats : (nats (q2Words x)).length = 66 := by
    rw [List.length_map, hlenq2]
  -- the sums are the high part of the product, shifted by 31 words
  have hindex : ∀ u ∈ products (31 ≤ ·) (nats mu) (nats (x.drop 31)), 31 ≤ u.1 ∧ u.1 < 66 := by
    intro u hu
    obtain ⟨hle, hlow⟩ := products_index hu
    rw [List.length_map, List.length_map, List.length_drop, hlen,
      show mu.length = 33 from rfl] at hle
    exact ⟨of_decide_eq_true hlow, by omega⟩
  have hsum := ofDigits_accumulate 256 _ (List.replicate 66 0) fun u hu => by
    rw [List.length_replicate]
    exact (hindex u hu).2
  have htake : (nats (q2Words x)).take 31 = List.replicate 31 0 := by
    rw [hq2, take_accumulate _ fun u hu => (hindex u hu).1]
    rfl
  have hshift : Nat.ofDigits 256 (nats (q2Words x)) =
      256 ^ 31 * Nat.ofDigits 256 ((nats (q2Words x)).drop 31) := by
    conv_lhs => rw [← List.take_append_drop 31 (nats (q2Words x)), htake]
    rw [Nat.ofDigits_append, ofDigits_replicate_zero, List.length_replicate, Nat.zero_add]
  rw [ofDigits_replicate_zero, Nat.zero_add, ← hq2, hshift] at hsum
  have hall := sum_products_add 256 (31 ≤ ·) (nats mu) (nats (x.drop 31))
  have hlow := low_products_lt hhigh
  obtain ⟨e, he, hq3⟩ := ofDigits_q3Nat hlennats
  have hq : q = Nat.ofDigits 256 (q3Nat (nats (q2Words x))) := by
    simp only [q]
    rw [nats_q3Words hlenq2 hcap]
  rw [← hsum, hq3, ← hq] at hall
  generalize (List.map (fun u : Nat × Nat => 256 ^ u.1 * u.2)
    (products (fun k => !decide (31 ≤ k)) (nats mu) (nats (x.drop 31)))).sum = rest at hall hlow
  have hx : Nat.ofDigits 256 (nats x) =
      Nat.ofDigits 256 (nats (x.drop 31)) * 256 ^ 31 + Nat.ofDigits 256 (nats (x.take 31)) := by
    have hlentake : (nats (x.take 31)).length = 31 := by
      rw [List.length_map, List.length_take, hlen]
      rfl
    conv_lhs => rw [← List.take_append_drop 31 x, nats, List.map_append, Nat.ofDigits_append]
    rw [← nats, ← nats, hlentake]
    ring
  have hlo := Bytes.ofDigits_lt (v := x.take 31) fun d hd => h d (List.mem_of_mem_take hd)
  have hhi := Bytes.ofDigits_lt (v := x.drop 31) fun d hd => h d (List.mem_of_mem_drop hd)
  rw [List.length_take, hlen] at hlo
  rw [List.length_drop, hlen] at hhi
  rw [hx]
  refine barrett_quotient (R := 256 ^ 33) (e := 256 ^ 31 * e + rest) hlo hhi ofDigits_mu ?_ ?_ ?_
  · rw [order_eq]
    decide
  · rw [← hall]
    ring
  · omega

/-! ## The remainder -/

/-- Bounds for the sums `r2`. -/
def r2Cap : List Nat :=
  accumulate (List.replicate 33 0) (products (· < 33) (nats m) (q3Nat q2Cap))

set_option maxRecDepth 20000 in
theorem r2Cap_eq : r2Cap =
  [328423698, 618380484, 953061150, 1075059168, 1097004789, 1209660231, 1201126737, 1280863467,
    1537011861, 1714392639, 2020698123, 2217846273, 2485610748, 2788055511, 3046426893,
    3015154575, 2945449155, 2856010455, 2749951875, 2645795085, 2543767545, 2447582820,
    2359892400, 2276404380, 2182874970, 2082488610, 1968458730, 1847973525, 1715347005,
    1567371525, 1406553225, 1265744589, 1117001745] := by
  rw [r2Cap, q2Cap_eq]
  decide

theorem r2Cap_lt : ∀ d ∈ r2Cap, d < 2 ^ 32 := by
  rw [r2Cap_eq]
  decide

theorem fits_r2Cap : Fits (2 ^ 32) 256 0 r2Cap := by
  rw [r2Cap_eq]
  decide

/-- The low words of the multiple of the modulus that is subtracted. -/
theorem r2Words_spec {q3 : List UInt32} (h : LimbsLe (nats q3) (q3Nat q2Cap)) :
    Bytes ((r2Words q3).take 32) ∧
      Nat.ofDigits 256 (nats ((r2Words q3).take 32)) =
        order * Nat.ofDigits 256 (nats q3) % 256 ^ 32 := by
  have hzero : LimbsLe (nats (List.replicate 33 0)) (List.replicate 33 0) := by
    rw [nats_replicate_zero]
    exact LimbsLe.refl _
  obtain ⟨hsums, hcap⟩ :=
    nats_accumulate (p := (· < 33)) hzero (LimbsLe.refl (nats m)) h r2Cap_lt
  rw [nats_replicate_zero] at hsums
  have hcarry : nats (r2Words q3) = carry 256 0 (nats (accumulate (List.replicate 33 0)
      (products (· < 33) m q3))) :=
    nats_carryLoop (fits_r2Cap.mono le_rfl hcap)
  have hlen : (nats (r2Words q3)).length = 33 := by
    rw [List.length_map, length_r2Words]
  have htake : nats ((r2Words q3).take 32) = (nats (r2Words q3)).dropLast := by
    rw [List.dropLast_eq_take, hlen, nats, List.map_take]
  have hbytes : Bytes ((r2Words q3).take 32) := by
    intro w hw
    have hmem : w.toNat ∈ (nats (r2Words q3)).dropLast := by
      rw [← htake]
      exact List.mem_map_of_mem hw
    rw [hcarry] at hmem
    exact carry_dropLast_lt (by decide) _ hmem
  have hindex : ∀ u ∈ products (· < 33) (nats m) (nats q3),
      u.1 < (List.replicate 33 0).length := by
    intro u hu
    rw [List.length_replicate]
    exact of_decide_eq_true (products_index hu).2
  have hvalue : Nat.ofDigits 256 (nats (r2Words q3)) =
      ((products (· < 33) (nats m) (nats q3)).map fun u => 256 ^ u.1 * u.2).sum := by
    rw [hcarry, ofDigits_carry _ _ _ (by
      rw [Ne, ← List.length_eq_zero_iff, List.length_map, length_accumulate,
        List.length_replicate]
      decide), hsums, ofDigits_accumulate 256 _ _ hindex, ofDigits_replicate_zero, Nat.zero_add,
      Nat.add_zero]
  have hall := sum_products_add 256 (· < 33) (nats m) (nats q3)
  obtain ⟨high, hhigh⟩ := dvd_sum_products (b := 256) (k := 33)
    (p := fun k => !decide (k < 33)) (by simp) (nats m) (nats q3)
  have hsplit : Nat.ofDigits 256 (nats (r2Words q3)) =
      Nat.ofDigits 256 (nats ((r2Words q3).take 32)) +
        256 ^ 32 * Nat.ofDigits 256 (nats ((r2Words q3).drop 32)) := by
    have hlentake : (nats ((r2Words q3).take 32)).length = 32 := by
      rw [List.length_map, List.length_take, length_r2Words]
      rfl
    conv_lhs => rw [← List.take_append_drop 32 (r2Words q3), nats, List.map_append,
      Nat.ofDigits_append, ← nats, ← nats, hlentake]
  have hlt := hbytes.ofDigits_lt
  rw [List.length_take, length_r2Words] at hlt
  change _ < 256 ^ 32 at hlt
  rw [← hvalue, hhigh, hsplit, ofDigits_m] at hall
  refine ⟨hbytes, ?_⟩
  rw [← hall]
  omega

/-- **The remainder** before the last two subtractions. -/
theorem barrettWords_spec {x : List UInt32} (h : Bytes x) (hlen : x.length = 64) :
    Bytes (barrettWords x hlen).v ∧
      value (barrettWords x hlen) + Nat.ofDigits 256 (nats (q3Words (q2Words x))) * order =
        Nat.ofDigits 256 (nats x) ∧
      value (barrettWords x hlen) < 3 * order := by
  have hq2 := nats_q2Words h hlen
  have hlenq2 : (q2Words x).length = 66 := by
    rw [q2Words, length_accumulate, List.length_replicate]
  have hq3 : LimbsLe (nats (q3Words (q2Words x))) (q3Nat q2Cap) := by
    rw [nats_q3Words hlenq2 hq2.2]
    exact q3Nat_le hq2.2
  obtain ⟨hbytes, hr2⟩ := r2Words_spec hq3
  obtain ⟨hle, hlt⟩ := quotient_spec h hlen
  have hlow : Bytes (x.take 32) := fun d hd => h d (List.mem_of_mem_take hd)
  have hlenlow : (x.take 32).length = 32 := by
    rw [List.length_take, hlen]
    rfl
  have hlenr2 : ((r2Words (q3Words (q2Words x))).take 32).length = 32 := by
    rw [List.length_take, length_r2Words]
    rfl
  obtain ⟨hwords, hborrow, hvalue⟩ := borrowLoop_spec (show (0 : UInt32).toNat ≤ 1 by decide)
    hlow hbytes (hlenlow.trans hlenr2.symm)
  have hsmall := hwords.ofDigits_lt
  rw [length_borrowLoop, hlenlow, hlenr2] at hsmall
  change _ < 256 ^ 32 at hsmall
  have hx : Nat.ofDigits 256 (nats x) =
      Nat.ofDigits 256 (nats (x.take 32)) + 256 ^ 32 * Nat.ofDigits 256 (nats (x.drop 32)) := by
    have hlentake : (nats (x.take 32)).length = 32 := by
      rw [List.length_map, hlenlow]
    conv_lhs => rw [← List.take_append_drop 32 x, nats, List.map_append, Nat.ofDigits_append,
      ← nats, ← nats, hlentake]
  rw [hr2, hlenlow, show (0 : UInt32).toNat = 0 from rfl, Nat.add_zero] at hvalue
  have horder := order_eq
  rw [Nat.mul_comm order] at hvalue
  generalize Nat.ofDigits 256 (nats (q3Words (q2Words x))) = q at *
  rw [Nat.add_mul] at hlt
  have hvalue' : value (barrettWords x hlen) + q * order = Nat.ofDigits 256 (nats x) := by
    have hwords' : value (barrettWords x hlen) = Nat.ofDigits 256 (nats (borrowLoop 0 (x.take 32)
        ((r2Words (q3Words (q2Words x))).take 32)).1) := rfl
    rw [hwords']
    omega
  exact ⟨hwords, hvalue', by omega⟩

/-- **`barrett_reduce`** reduces. -/
theorem barrettReduce_spec {x : List UInt32} (h : Bytes x) (hlen : x.length = 64) :
    Bytes (barrettReduce x hlen).v ∧
      value (barrettReduce x hlen) = Nat.ofDigits 256 (nats x) % order := by
  obtain ⟨hbytes, hvalue, hlt⟩ := barrettWords_spec h hlen
  obtain ⟨hbytes₁, hvalue₁⟩ := reduceAddSub_spec hbytes
  obtain ⟨hbytes₂, hvalue₂⟩ := reduceAddSub_spec hbytes₁
  refine ⟨hbytes₂, ?_⟩
  rw [barrettReduce, hvalue₂, hvalue₁, condSub_condSub hlt, ← hvalue, Nat.add_mul_mod_self_right]

/-! ## Operations -/

/-- A scalar as the operations leave it. -/
structure Reduced (x : Sc25519) : Prop where
  bytes : Bytes x.v
  lt : value x < order

theorem barrettReduce_reduced {x : List UInt32} (h : Bytes x) (hlen : x.length = 64) :
    Reduced (barrettReduce x hlen) := by
  obtain ⟨hbytes, hvalue⟩ := barrettReduce_spec h hlen
  refine ⟨hbytes, ?_⟩
  rw [hvalue]
  exact Nat.mod_lt _ (by rw [order_eq]; decide)

/-- The words of an array of bytes. -/
theorem words_of_bytes {b : List UInt8} {n : Nat} (hb : b.length = n) :
    (List.range n).map (fun i => (b.getD i 0).toUInt32) = b.map UInt8.toUInt32 ∧
      Bytes (b.map UInt8.toUInt32) ∧ nats (b.map UInt8.toUInt32) = b.map UInt8.toNat := by
  have hrange := map_range_getD 0 (l := b) (k := 0) (n := n) (by omega)
  simp only [Nat.zero_add, List.drop_zero] at hrange
  rw [List.take_of_length_le (by omega)] at hrange
  refine ⟨?_, ?_, ?_⟩
  · conv_rhs => rw [← hrange, List.map_map]
    rfl
  · intro w hw
    obtain ⟨c, -, rfl⟩ := List.mem_map.1 hw
    rw [UInt8.toNat_toUInt32]
    exact c.toNat_lt
  · rw [nats, List.map_map]
    exact List.map_congr_left fun c _ => UInt8.toNat_toUInt32 c

/-- **`sc25519_from64bytes`.** -/
theorem from64bytes_spec {b : List UInt8} (hb : b.length = 64) :
    Reduced (from64bytes b) ∧
      value (from64bytes b) = Nat.ofDigits 256 (b.map UInt8.toNat) % order := by
  obtain ⟨hwords, hbytes, hnats⟩ := words_of_bytes hb
  have hbytes' : Bytes ((List.range 64).map fun i => (b.getD i 0).toUInt32) := by
    rwa [hwords]
  refine ⟨barrettReduce_reduced hbytes' _, ?_⟩
  rw [from64bytes, (barrettReduce_spec hbytes' _).2, hwords, hnats]

/-- **`sc25519_from32bytes`.** -/
theorem from32bytes_spec {b : List UInt8} (hb : b.length = 32) :
    Reduced (from32bytes b) ∧
      value (from32bytes b) = Nat.ofDigits 256 (b.map UInt8.toNat) % order := by
  obtain ⟨hwords, hbytes, hnats⟩ := words_of_bytes hb
  have hbytes' : Bytes ((List.range 32).map (fun i => (b.getD i 0).toUInt32) ++
      List.replicate 32 0) := by
    rw [hwords]
    intro w hw
    rcases List.mem_append.1 hw with hw | hw
    · exact hbytes w hw
    · rw [List.eq_of_mem_replicate hw]
      decide
  refine ⟨barrettReduce_reduced hbytes' _, ?_⟩
  rw [from32bytes, (barrettReduce_spec hbytes' _).2, hwords, nats, List.map_append, ← nats, ← nats,
    hnats, nats_replicate_zero, Nat.ofDigits_append, ofDigits_replicate_zero, Nat.mul_zero,
    Nat.add_zero]

/-- Carries leave bytes, if the number as a whole fits in. -/
theorem bytes_carryLoop {v : List UInt32} (h : Fits (2 ^ 32) 256 0 (nats v))
    (hlt : Nat.ofDigits 256 (nats v) < 256 ^ v.length) :
    Bytes (carryLoop 0 v) ∧
      Nat.ofDigits 256 (nats (carryLoop 0 v)) = Nat.ofDigits 256 (nats v) := by
  have hcarry : nats (carryLoop 0 v) = carry 256 0 (nats v) := nats_carryLoop h
  by_cases hne : v = []
  · subst hne
    exact ⟨fun d hd => by simp [carryLoop] at hd, rfl⟩
  have hne' : carry 256 0 (nats v) ≠ [] := by
    rw [Ne, ← List.length_eq_zero_iff, length_carry, List.length_map, List.length_eq_zero_iff]
    exact hne
  have hvalue : Nat.ofDigits 256 (carry 256 0 (nats v)) = Nat.ofDigits 256 (nats v) := by
    rw [ofDigits_carry _ _ _ (by simpa using hne), Nat.add_zero]
  have hlast : (carry 256 0 (nats v)).getLast hne' < 256 := by
    have hsplit := congrArg (Nat.ofDigits 256) (List.dropLast_concat_getLast hne')
    have hlen : (carry 256 0 (nats v)).dropLast.length = v.length - 1 := by
      rw [List.length_dropLast, length_carry, List.length_map]
    have hpos : 0 < v.length := List.length_pos_iff.2 hne
    have hpow : 256 ^ v.length = 256 ^ (v.length - 1) * 256 := by
      rw [← pow_succ, Nat.sub_add_cancel hpos]
    rw [Nat.ofDigits_append, hlen, Nat.ofDigits_singleton, hvalue] at hsplit
    rw [hpow] at hlt
    exact Nat.lt_of_mul_lt_mul_left (Nat.lt_of_le_of_lt (Nat.le_add_left _ _) (hsplit ▸ hlt))
  refine ⟨fun w hw => ?_, hcarry ▸ hvalue⟩
  have hmem : w.toNat ∈ carry 256 0 (nats v) := hcarry ▸ List.mem_map_of_mem hw
  rw [← List.dropLast_concat_getLast hne', List.mem_append, List.mem_singleton] at hmem
  rcases hmem with hmem | hmem
  · exact carry_dropLast_lt (by decide) _ hmem
  · rw [hmem]
    exact hlast

/-- Bounds for the sums of `sc25519_mul`. -/
def mulCap : List Nat :=
  accumulate (List.replicate 64 0)
    (products (fun _ => true) (List.replicate 32 255) (List.replicate 32 255))

set_option maxRecDepth 20000 in
theorem mulCap_eq : mulCap =
  [65025, 130050, 195075, 260100, 325125, 390150, 455175, 520200, 585225, 650250, 715275, 780300,
    845325, 910350, 975375, 1040400, 1105425, 1170450, 1235475, 1300500, 1365525, 1430550,
    1495575, 1560600, 1625625, 1690650, 1755675, 1820700, 1885725, 1950750, 2015775, 2080800,
    2015775, 1950750, 1885725, 1820700, 1755675, 1690650, 1625625, 1560600, 1495575, 1430550,
    1365525, 1300500, 1235475, 1170450, 1105425, 1040400, 975375, 910350, 845325, 780300, 715275,
    650250, 585225, 520200, 455175, 390150, 325125, 260100, 195075, 130050, 65025, 0] := by
  decide

theorem mulCap_lt : ∀ d ∈ mulCap, d < 2 ^ 32 := by
  rw [mulCap_eq]
  decide

theorem fits_mulCap : Fits (2 ^ 32) 256 0 mulCap := by
  rw [mulCap_eq]
  decide

theorem mulWords_spec {x y : Sc25519} (hx : Bytes x.v) (hy : Bytes y.v) :
    Bytes (mulWords x y) ∧ Nat.ofDigits 256 (nats (mulWords x y)) = value x * value y := by
  have hzero : LimbsLe (nats (List.replicate 64 0)) (List.replicate 64 0) := by
    rw [nats_replicate_zero]
    exact LimbsLe.refl _
  have hxle := hx.le
  have hyle := hy.le
  rw [x.length_v] at hxle
  rw [y.length_v] at hyle
  obtain ⟨hsums, hcap⟩ := nats_accumulate (p := fun _ => true) hzero hxle hyle mulCap_lt
  have hindex : ∀ u ∈ products (fun _ => true) (nats x.v) (nats y.v),
      u.1 < (List.replicate 64 0).length := by
    intro u hu
    have hlen := (products_index hu).1
    rw [List.length_map, List.length_map, x.length_v, y.length_v] at hlen
    rw [List.length_replicate]
    omega
  have hvalue : Nat.ofDigits 256 (nats (accumulate (List.replicate 64 0)
      (products (fun _ => true) x.v y.v))) = value x * value y := by
    rw [hsums, nats_replicate_zero, ofDigits_accumulate 256 _ _ hindex, sum_products,
      ofDigits_replicate_zero, Nat.zero_add]
    rfl
  have hxlt : value x < 256 ^ 32 := x.length_v ▸ hx.ofDigits_lt
  have hylt : value y < 256 ^ 32 := y.length_v ▸ hy.ofDigits_lt
  rw [← hvalue]
  refine bytes_carryLoop (fits_mulCap.mono le_rfl hcap) ?_
  rw [hvalue, length_accumulate, List.length_replicate]
  calc value x * value y < 256 ^ 32 * 256 ^ 32 := Nat.mul_lt_mul'' hxlt hylt
    _ = 256 ^ 64 := by norm_num

/-- **`sc25519_mul`.** -/
theorem mul_spec {x y : Sc25519} (hx : Bytes x.v) (hy : Bytes y.v) :
    Reduced (mul x y) ∧ value (mul x y) = value x * value y % order := by
  obtain ⟨hbytes, hvalue⟩ := mulWords_spec hx hy
  refine ⟨barrettReduce_reduced hbytes _, ?_⟩
  rw [mul, (barrettReduce_spec hbytes _).2, hvalue]

/-- **`sc25519_add`**, of reduced scalars. -/
theorem add_spec {x y : Sc25519} (hx : Reduced x) (hy : Reduced y) :
    Reduced (add x y) ∧ value (add x y) = (value x + value y) % order := by
  have hxle := hx.bytes.le
  have hyle := hy.bytes.le
  rw [x.length_v] at hxle
  rw [y.length_v] at hyle
  have hxlt := hx.lt
  have hylt := hy.lt
  have horder := order_eq
  obtain ⟨hsum, hcap⟩ := nats_zipWith_add hxle hyle (by decide)
  have hvalue : Nat.ofDigits 256 (nats (x.v.zipWith (· + ·) y.v)) = value x + value y := by
    rw [hsum]
    exact (Nat.ofDigits_add_ofDigits_eq_ofDigits_zipWith_of_length_eq (by
      rw [List.length_map, List.length_map, x.length_v, y.length_v])).symm
  have hlen : (x.v.zipWith (· + ·) y.v).length = 32 := by
    rw [List.length_zipWith, x.length_v, y.length_v]
    rfl
  have hfits : Fits (2 ^ 32) 256 0
      ((List.replicate 32 255).zipWith (· + ·) (List.replicate 32 255)) := by decide
  obtain ⟨hbytes, hcarry⟩ := bytes_carryLoop (hfits.mono le_rfl hcap) (by
    rw [hvalue, hlen]
    omega)
  obtain ⟨hbytes', hvalue'⟩ := reduceAddSub_spec
    (x := ⟨carryLoop 0 (x.v.zipWith (· + ·) y.v), by rw [length_carryLoop, hlen]⟩) hbytes
  have hmod : value (add x y) = (value x + value y) % order := by
    rw [← condSub_of_lt (by omega), ← hvalue, ← hcarry]
    exact hvalue'
  refine ⟨⟨hbytes', ?_⟩, hmod⟩
  rw [hmod]
  exact Nat.mod_lt _ (by omega)

/-- `sc25519_to32bytes` writes the number. -/
theorem to32bytes_spec {x : Sc25519} (h : Bytes x.v) :
    (to32bytes x).length = 32 ∧
      Nat.ofDigits 256 ((to32bytes x).map UInt8.toNat) = value x := by
  refine ⟨by rw [to32bytes, List.length_map, x.length_v], ?_⟩
  rw [value, to32bytes, nats, List.map_map]
  refine congrArg (Nat.ofDigits 256) (List.map_congr_left fun w hw => ?_)
  rw [Function.comp_apply, UInt32.toNat_toUInt8, Nat.mod_eq_of_lt (h w hw)]

/-! ## Differences and comparisons -/

/-- One word of `sc25519_sub_nored`. -/
theorem sub_step {x y b : UInt32} (hx : x.toNat < 256) (hy : y.toNat < 256) (hb : b.toNat ≤ 1) :
    ((x - y - b) &&& 255).toNat < 256 ∧ (((x - y - b) >>> 8) &&& 1).toNat ≤ 1 ∧
      ((x - y - b) &&& 255).toNat + y.toNat + b.toNat =
        x.toNat + 256 * (((x - y - b) >>> 8) &&& 1).toNat := by
  have ht : (x - y - b).toNat = (2 ^ 32 - b.toNat + (2 ^ 32 - y.toNat + x.toNat) % 2 ^ 32) % 2 ^ 32 := by
    rw [UInt32.toNat_sub, UInt32.toNat_sub]
  have hone : (((x - y - b) >>> 8) &&& 1).toNat = (x - y - b).toNat / 256 % 2 := by
    rw [UInt32.toNat_and, toNat_shiftRight_8]
    exact Nat.and_two_pow_sub_one_eq_mod _ 1
  rw [toNat_and_255, hone, ht]
  omega

/-- **The loop subtracts**, modulo its width. -/
theorem subLoop_spec : ∀ {b : UInt32} {x y : List UInt32}, b.toNat ≤ 1 → Bytes x → Bytes y →
    x.length = y.length →
      Bytes (subLoop b x y) ∧ ∃ c, Nat.ofDigits 256 (nats (subLoop b x y)) +
        Nat.ofDigits 256 (nats y) + b.toNat = Nat.ofDigits 256 (nats x) + 256 ^ x.length * c
  | b, [], [], hb, _, _, _ =>
    ⟨fun d hd => by simp [subLoop] at hd, b.toNat, by simp [subLoop]⟩
  | b, x :: xs, y :: ys, hb, hx, hy, hlen => by
    obtain ⟨hdigit, hborrow, hstep⟩ := sub_step (hx x (by simp)) (hy y (by simp)) hb
    obtain ⟨ih1, c, ih2⟩ := subLoop_spec hborrow
      (fun d hd => hx d (List.mem_cons_of_mem x hd)) (fun d hd => hy d (List.mem_cons_of_mem y hd))
      (Nat.succ.inj hlen)
    refine ⟨?_, c, ?_⟩
    · intro d hd
      rcases List.mem_cons.1 hd with rfl | hd
      · exact hdigit
      · exact ih1 d hd
    · simp only [subLoop, nats, List.map_cons, Nat.ofDigits_cons, List.length_cons, pow_succ']
        at ih2 ⊢
      linear_combination 256 * ih2 + hstep

/-- **`sc25519_sub_nored`** subtracts modulo `2 ^ 256`. -/
theorem subNored_spec {x y : Sc25519} (hx : Bytes x.v) (hy : Bytes y.v) :
    Bytes (subNored x y).v ∧ (value (subNored x y) + value y) % 2 ^ 256 = value x := by
  obtain ⟨hbytes, c, hvalue⟩ := subLoop_spec (b := 0) (by decide) hx hy
    (x.length_v.trans y.length_v.symm)
  have hxlt : value x < 256 ^ 32 := x.length_v ▸ hx.ofDigits_lt
  rw [x.length_v, show (0 : UInt32).toNat = 0 from rfl, Nat.add_zero] at hvalue
  have hpow : (2 : Nat) ^ 256 = 256 ^ 32 := by norm_num
  refine ⟨hbytes, ?_⟩
  rw [show value (subNored x y) + value y = value x + 256 ^ 32 * c from hvalue, hpow,
    Nat.add_mul_mod_self_left, Nat.mod_eq_of_lt hxlt]

theorem ofDigits_nats_concat (v : List UInt32) (w : UInt32) :
    Nat.ofDigits 256 (nats (v ++ [w])) = Nat.ofDigits 256 (nats v) + 256 ^ v.length * w.toNat := by
  rw [nats, List.map_append, Nat.ofDigits_append, List.length_map, List.map_singleton,
    Nat.ofDigits_singleton]

/-- The words of a number, read from the most significant one, compare as the numbers do. -/
theorem ltLoop_reverse : ∀ {x y : List UInt32}, Bytes x → Bytes y → x.length = y.length →
    (ltLoop x.reverse y.reverse = true ↔
      Nat.ofDigits 256 (nats x) < Nat.ofDigits 256 (nats y)) := by
  intro x
  induction x using List.reverseRecOn with
  | nil =>
    intro y _ _ hlen
    rw [List.length_eq_zero_iff.1 hlen.symm]
    simp [ltLoop]
  | append_singleton x a ih =>
    intro y hx hy hlen
    cases y using List.reverseRecOn with
    | nil => simp at hlen
    | append_singleton y c =>
      have hx' : Bytes x := fun d hd => hx d (List.mem_append_left _ hd)
      have hy' : Bytes y := fun d hd => hy d (List.mem_append_left _ hd)
      have hlen' : x.length = y.length := by simpa using hlen
      have hxlt := hx'.ofDigits_lt
      have hylt := hy'.ofDigits_lt
      have ih := ih hx' hy' hlen'
      simp only [List.reverse_append, List.reverse_cons, List.reverse_nil, List.nil_append,
        List.singleton_append, ltLoop]
      rw [ofDigits_nats_concat, ofDigits_nats_concat, ← hlen']
      rw [← hlen'] at hylt
      rcases Nat.lt_trichotomy a.toNat c.toNat with hac | hac | hac
      · rw [if_pos (UInt32.lt_iff_toNat_lt.2 hac)]
        have hmul := Nat.mul_le_mul_left (256 ^ x.length) hac
        rw [Nat.mul_succ] at hmul
        exact iff_of_true rfl (by omega)
      · rw [UInt32.toNat_inj.1 hac, if_neg (UInt32.lt_irrefl c), if_neg (UInt32.lt_irrefl c), ih]
        omega
      · rw [if_neg (fun h => absurd (UInt32.lt_iff_toNat_lt.1 h) (Nat.not_lt.2 (Nat.le_of_lt hac))),
          if_pos (UInt32.lt_iff_toNat_lt.2 hac)]
        have hmul := Nat.mul_le_mul_left (256 ^ x.length) hac
        rw [Nat.mul_succ] at hmul
        exact iff_of_false Bool.false_ne_true (by omega)

/-- **`sc25519_lt_vartime`** compares. -/
theorem ltVartime_iff {x y : Sc25519} (hx : Bytes x.v) (hy : Bytes y.v) :
    ltVartime x y = true ↔ value x < value y :=
  ltLoop_reverse hx hy (x.length_v.trans y.length_v.symm)

theorem ofDigits_nats_eq_zero : ∀ {v : List UInt32},
    Nat.ofDigits 256 (nats v) = 0 ↔ ∀ w ∈ v, w = 0
  | [] => by simp
  | w :: v => by
    rw [nats, List.map_cons, Nat.ofDigits_cons, List.forall_mem_cons, ← ofDigits_nats_eq_zero,
      ← UInt32.toNat_inj, ← nats]
    change _ ↔ w.toNat = 0 ∧ _
    omega

/-- Words that are zero, found by their places. -/
theorem forall_getD_eq_zero {v : List UInt32} {k n : Nat} (h : v.length = k + n) :
    (∀ i, k ≤ i → i < k + n → v.getD i 0 = 0) ↔ ∀ w ∈ v.drop k, w = 0 := by
  constructor
  · intro hzero w hw
    obtain ⟨i, hi, rfl⟩ := List.getElem_of_mem hw
    rw [List.length_drop] at hi
    have hword := hzero (k + i) (by omega) (by omega)
    rw [List.getD_eq_getElem?_getD, List.getElem?_eq_getElem (by omega), Option.getD_some] at hword
    rw [List.getElem_drop]
    exact hword
  · intro hzero i hki hi
    rw [List.getD_eq_getElem?_getD, List.getElem?_eq_getElem (by omega), Option.getD_some]
    refine hzero _ ?_
    rw [List.mem_drop_iff_getElem]
    exact ⟨i - k, by omega, by simp [Nat.add_sub_cancel' hki]⟩

/-- `sc25519_iszero_vartime`. -/
theorem iszeroVartime_iff (x : Sc25519) : iszeroVartime x = true ↔ value x = 0 := by
  rw [value, ofDigits_nats_eq_zero, iszeroVartime]
  simp only [List.all_eq_true, List.mem_range, beq_iff_eq]
  rw [← List.drop_zero (l := x.v), ← forall_getD_eq_zero (k := 0) (n := 32) (by
    rw [x.length_v]), List.drop_zero]
  exact ⟨fun h i _ hi => h i (by omega), fun h i hi => h i (Nat.zero_le i) (by omega)⟩

/-- **`sc25519_isshort_vartime`** finds the numbers of 128 bits. -/
theorem isshortVartime_iff {x : Sc25519} (h : Bytes x.v) :
    isshortVartime x = true ↔ value x < 2 ^ 128 := by
  have hsplit : value x =
      Nat.ofDigits 256 (nats (x.v.take 16)) + 256 ^ 16 * Nat.ofDigits 256 (nats (x.v.drop 16)) := by
    have hlen : (nats (x.v.take 16)).length = 16 := by
      rw [List.length_map, List.length_take, x.length_v]
      rfl
    rw [value]
    conv_lhs => rw [← List.take_append_drop 16 x.v, nats, List.map_append, Nat.ofDigits_append,
      ← nats, ← nats, hlen]
  have hlow := Bytes.ofDigits_lt (v := x.v.take 16) fun d hd => h d (List.mem_of_mem_take hd)
  rw [List.length_take, x.length_v] at hlow
  change _ < 256 ^ 16 at hlow
  have hzero : isshortVartime x = true ↔ Nat.ofDigits 256 (nats (x.v.drop 16)) = 0 := by
    rw [ofDigits_nats_eq_zero, isshortVartime]
    simp only [List.all_eq_true, List.mem_range, beq_iff_eq]
    rw [← forall_getD_eq_zero (k := 16) (n := 16) (by rw [x.length_v])]
    constructor
    · intro h i hi hi'
      have hword := h (31 - i) (by omega)
      rwa [show 31 - (31 - i) = i by omega] at hword
    · exact fun h k hk => h (31 - k) (by omega) (by omega)
  rw [hzero, hsplit]
  omega

/-- `sc25519_from_shortsc` keeps the number. -/
theorem fromShortsc_spec {x : Shortsc25519} (h : Bytes x.v) :
    Reduced (fromShortsc x) ∧ value (fromShortsc x) = Nat.ofDigits 256 (nats x.v) := by
  have hvalue : value (fromShortsc x) = Nat.ofDigits 256 (nats x.v) := by
    rw [value, fromShortsc, nats, List.map_append, Nat.ofDigits_append, ← nats, ← nats,
      nats_replicate_zero, ofDigits_replicate_zero, Nat.mul_zero, Nat.add_zero]
  refine ⟨⟨?_, ?_⟩, hvalue⟩
  · intro w hw
    rcases List.mem_append.1 hw with hw | hw
    · exact h w hw
    · rw [List.eq_of_mem_replicate hw]
      decide
  · have hlt := h.ofDigits_lt
    rw [x.length_v] at hlt
    have horder := order_eq
    omega

/-- **`sc25519_mul_shortsc`.** -/
theorem mulShortsc_spec {x : Sc25519} {y : Shortsc25519} (hx : Bytes x.v) (hy : Bytes y.v) :
    Reduced (mulShortsc x y) ∧
      value (mulShortsc x y) = value x * Nat.ofDigits 256 (nats y.v) % order := by
  obtain ⟨hshort, hvalue⟩ := fromShortsc_spec hy
  rw [← hvalue]
  exact mul_spec hx hshort.bytes

/-! ## Results -/

/-- **Barrett's reduction.**  Any sixty-four words of a byte each, and any array of sixty-four or of
thirty-two bytes, are reduced to the remainder of their number: the estimate of the quotient is at
most two too small, and what it leaves is taken off by the two subtractions at the end. -/
theorem barrett_reduction {x : List UInt32} (h : Bytes x) (hlen : x.length = 64) {b c : List UInt8}
    (hb : b.length = 64) (hc : c.length = 32) :
    (Nat.ofDigits 256 (nats (q3Words (q2Words x))) ≤ Nat.ofDigits 256 (nats x) / order ∧
      Nat.ofDigits 256 (nats x) / order ≤ Nat.ofDigits 256 (nats (q3Words (q2Words x))) + 2 ∧
      value (barrettWords x hlen) + Nat.ofDigits 256 (nats (q3Words (q2Words x))) * order =
        Nat.ofDigits 256 (nats x)) ∧
    (Reduced (barrettReduce x hlen) ∧
        value (barrettReduce x hlen) = Nat.ofDigits 256 (nats x) % order) ∧
      (Reduced (from64bytes b) ∧
        value (from64bytes b) = Nat.ofDigits 256 (b.map UInt8.toNat) % order) ∧
      (Reduced (from32bytes c) ∧
        value (from32bytes c) = Nat.ofDigits 256 (c.map UInt8.toNat) % order) := by
  have hpos : 0 < order := by rw [order_eq]; decide
  obtain ⟨hle, hlt⟩ := quotient_spec h hlen
  refine ⟨⟨(Nat.le_div_iff_mul_le hpos).2 hle, ?_, (barrettWords_spec h hlen).2.1⟩,
    ⟨barrettReduce_reduced h hlen, (barrettReduce_spec h hlen).2⟩, from64bytes_spec hb,
    from32bytes_spec hc⟩
  exact Nat.le_of_lt_succ ((Nat.div_lt_iff_lt_mul hpos).2 hlt)

theorem barrett_reduction_ones :
    (Nat.ofDigits 256 (nats (q3Words (q2Words (List.replicate 64 255)))) ≤
        Nat.ofDigits 256 (nats (List.replicate 64 255)) / order ∧
      Nat.ofDigits 256 (nats (List.replicate 64 255)) / order ≤
        Nat.ofDigits 256 (nats (q3Words (q2Words (List.replicate 64 255)))) + 2 ∧
      value (barrettWords (List.replicate 64 255) rfl) +
          Nat.ofDigits 256 (nats (q3Words (q2Words (List.replicate 64 255)))) * order =
        Nat.ofDigits 256 (nats (List.replicate 64 255))) ∧
    (Reduced (barrettReduce (List.replicate 64 255) rfl) ∧
        value (barrettReduce (List.replicate 64 255) rfl) =
          Nat.ofDigits 256 (nats (List.replicate 64 255)) % order) ∧
      (Reduced (from64bytes (List.replicate 64 255)) ∧ value (from64bytes (List.replicate 64 255)) =
        Nat.ofDigits 256 ((List.replicate 64 (255 : UInt8)).map UInt8.toNat) % order) ∧
      (Reduced (from32bytes (List.replicate 32 255)) ∧ value (from32bytes (List.replicate 32 255)) =
        Nat.ofDigits 256 ((List.replicate 32 (255 : UInt8)).map UInt8.toNat) % order) :=
  barrett_reduction (by decide) rfl rfl rfl

/-- **Scalar arithmetic.**  Sums and products of reduced scalars, and the bytes of them, are those of
the numbers modulo the group order. -/
theorem scalar_arithmetic {x y : Sc25519} (hx : Reduced x) (hy : Reduced y) :
    (Reduced (add x y) ∧ value (add x y) = (value x + value y) % order) ∧
      (Reduced (mul x y) ∧ value (mul x y) = value x * value y % order) ∧
      from32bytes (to32bytes x) = x := by
  refine ⟨add_spec hx hy, mul_spec hx.bytes hy.bytes, ?_⟩
  obtain ⟨hlen, hbytes⟩ := to32bytes_spec hx.bytes
  obtain ⟨hreduced, hvalue⟩ := from32bytes_spec hlen
  rw [hbytes, Nat.mod_eq_of_lt hx.lt] at hvalue
  have hnats := eq_of_ofDigits_eq hreduced.bytes.nats_lt hx.bytes.nats_lt
    (by rw [List.length_map, List.length_map, Sc25519.length_v, Sc25519.length_v]) hvalue
  refine Sc25519.ext ?_
  rw [← map_ofNat_nats (from32bytes (to32bytes x)).v, hnats, map_ofNat_nats]

/-- The largest reduced scalar. -/
def largestScalar : Sc25519 := ⟨m.set 0 0xec, rfl⟩

theorem reduced_largestScalar : Reduced largestScalar := by
  refine ⟨by decide, ?_⟩
  rw [order_eq]
  decide

/-- A scalar with no two words the same. -/
def risingScalar : Sc25519 :=
  ⟨(List.range 32).map fun i => UInt32.ofNat ((3 * i + 5) % 32), by decide⟩

theorem reduced_risingScalar : Reduced risingScalar := by
  refine ⟨by decide, ?_⟩
  rw [order_eq]
  decide

theorem scalar_arithmetic_largest :
    (Reduced (add largestScalar risingScalar) ∧ value (add largestScalar risingScalar) =
        (value largestScalar + value risingScalar) % order) ∧
      (Reduced (mul largestScalar risingScalar) ∧ value (mul largestScalar risingScalar) =
        value largestScalar * value risingScalar % order) ∧
      from32bytes (to32bytes largestScalar) = largestScalar :=
  scalar_arithmetic reduced_largestScalar reduced_risingScalar

/-- **Comparisons.**  On words of a byte each the tests find zero, the numbers of 128 bits and the
smaller number, and where the second number is not the larger one `sub_nored` is the difference. -/
theorem comparisons {x y : Sc25519} (hx : Bytes x.v) (hy : Bytes y.v) :
    (iszeroVartime x = true ↔ value x = 0) ∧ (isshortVartime x = true ↔ value x < 2 ^ 128) ∧
      (ltVartime x y = true ↔ value x < value y) ∧
      (ltVartime x y = false → value (subNored x y) = value x - value y) := by
  refine ⟨iszeroVartime_iff x, isshortVartime_iff hx, ltVartime_iff hx hy, fun h => ?_⟩
  have hle : value y ≤ value x := by
    rw [← Nat.not_lt, ← ltVartime_iff hx hy, h]
    exact Bool.false_ne_true
  obtain ⟨hbytes, hvalue⟩ := subNored_spec hx hy
  have hsub : value (subNored x y) < 256 ^ 32 := (subNored x y).length_v ▸ hbytes.ofDigits_lt
  have hxlt : value x < 256 ^ 32 := x.length_v ▸ hx.ofDigits_lt
  omega

theorem comparisons_ones :
    let x : Sc25519 := ⟨List.replicate 32 255, rfl⟩
    let y : Sc25519 := ⟨0 :: List.replicate 31 255, rfl⟩
    (iszeroVartime x = true ↔ value x = 0) ∧ (isshortVartime x = true ↔ value x < 2 ^ 128) ∧
      (ltVartime x y = true ↔ value x < value y) ∧
      (ltVartime x y = false → value (subNored x y) = value x - value y) :=
  comparisons (by decide) (by decide)

end Sc25519
end Zedboard
