import Zedboard.Lib.Limbs

/-!
# Scalars

`sc25519`: numbers modulo the order of the base point, in thirty-two words of a byte each.  Products
are reduced by Barrett's method, which multiplies by the precomputed `mu` instead of dividing.

For the multiplications on the curve a scalar is cut into windows of three or five bits, whose
digits are then made signed, or two scalars are interleaved two bits at a time.
-/

set_option autoImplicit false

namespace Zedboard

/-- `sc25519`. -/
@[ext] structure Sc25519 where
  v : List UInt32
  length_v : v.length = 32

/-- `shortsc25519`. -/
structure Shortsc25519 where
  v : List UInt32
  length_v : v.length = 16

namespace Sc25519

/-- The array `m`: the group order. -/
def m : List UInt32 :=
  [0xED, 0xD3, 0xF5, 0x5C, 0x1A, 0x63, 0x12, 0x58, 0xD6, 0x9C, 0xF7, 0xA2, 0xDE, 0xF9, 0xDE, 0x14,
    0x00, 0x00, 0x00, 0x00, 0x00, 0x00, 0x00, 0x00, 0x00, 0x00, 0x00, 0x00, 0x00, 0x00, 0x00, 0x10]

/-- The array `mu`. -/
def mu : List UInt32 :=
  [0x1B, 0x13, 0x2C, 0x0A, 0xA3, 0xE5, 0x9C, 0xED, 0xA7, 0x29, 0x63, 0x08, 0x5D, 0x21, 0x06, 0x21,
    0xEB, 0xFF, 0xFF, 0xFF, 0xFF, 0xFF, 0xFF, 0xFF, 0xFF, 0xFF, 0xFF, 0xFF, 0xFF, 0xFF, 0xFF, 0xFF,
    0x0F]

/-- `lt`, for inputs of 16 bits. -/
def lt (a b : UInt32) : UInt32 := (a - b) >>> 31

/-! ## Reduction -/

/-- The loop that subtracts with borrows: the words of the difference, and the last borrow. -/
def borrowLoop : UInt32 → List UInt32 → List UInt32 → List UInt32 × UInt32
  | pb, r :: rs, s :: ss =>
    let pb := pb + s
    let b := lt r pb
    let rest := borrowLoop b rs ss
    ((r - pb + (b <<< 8)) :: rest.1, rest.2)
  | pb, _, _ => ([], pb)

theorem length_borrowLoop : ∀ (pb : UInt32) (r s : List UInt32),
    (borrowLoop pb r s).1.length = min r.length s.length
  | _, [], _ => by simp [borrowLoop]
  | _, _ :: _, [] => by simp [borrowLoop]
  | _, _ :: rs, _ :: ss => by
    simp only [borrowLoop, List.length_cons, length_borrowLoop _ rs ss]
    omega

/-- `reduce_add_sub`.  The array `t` is one of `unsigned char`. -/
def reduceAddSub (r : Sc25519) : Sc25519 where
  v :=
    let d := borrowLoop 0 r.v m
    let t := d.1.map fun x => x.toUInt8.toUInt32
    let mask := d.2 - 1
    r.v.zipWith (fun x y => x ^^^ (mask &&& (x ^^^ y))) t
  length_v := by
    rw [List.length_zipWith, List.length_map, length_borrowLoop, r.length_v]
    rfl

/-- The first sums of `barrett_reduce`, without those below word 31. -/
def q2Words (x : List UInt32) : List UInt32 :=
  accumulate (List.replicate 66 0) (products (31 ≤ ·) mu ((x.drop 31).take 33))

/-- The quotient, after two carries. -/
def q3Words (q2 : List UInt32) : List UInt32 :=
  let q2 := q2.set 32 (q2.getD 32 0 + (q2.getD 31 0 >>> 8))
  let q2 := q2.set 33 (q2.getD 33 0 + (q2.getD 32 0 >>> 8))
  q2.drop 33

/-- The low words of the quotient times the modulus. -/
def r2Words (q3 : List UInt32) : List UInt32 :=
  carryLoop 0 (accumulate (List.replicate 33 0) (products (· < 33) m q3))

theorem length_r2Words (q3 : List UInt32) : (r2Words q3).length = 33 := by
  rw [r2Words, length_carryLoop, length_accumulate, List.length_replicate]

/-- `barrett_reduce`, before the two subtractions at its end. -/
def barrettWords (x : List UInt32) (h : x.length = 64) : Sc25519 where
  v := (borrowLoop 0 (x.take 32) ((r2Words (q3Words (q2Words x))).take 32)).1
  length_v := by
    rw [length_borrowLoop, List.length_take, List.length_take, length_r2Words, h]
    rfl

/-- `barrett_reduce`. -/
def barrettReduce (x : List UInt32) (h : x.length = 64) : Sc25519 :=
  reduceAddSub (reduceAddSub (barrettWords x h))

/-! ## Bytes -/

/-- `sc25519_from32bytes`. -/
def from32bytes (x : List UInt8) : Sc25519 :=
  barrettReduce ((List.range 32).map (fun i => (x.getD i 0).toUInt32) ++ List.replicate 32 0)
    (by simp)

/-- `shortsc25519_from16bytes`. -/
def shortFrom16bytes (x : List UInt8) : Shortsc25519 :=
  ⟨(List.range 16).map fun i => (x.getD i 0).toUInt32, by simp⟩

/-- `sc25519_from64bytes`. -/
def from64bytes (x : List UInt8) : Sc25519 :=
  barrettReduce ((List.range 64).map fun i => (x.getD i 0).toUInt32) (by simp)

/-- `sc25519_from_shortsc`. -/
def fromShortsc (x : Shortsc25519) : Sc25519 :=
  ⟨x.v ++ List.replicate 16 0, by rw [List.length_append, x.length_v]; rfl⟩

/-- `sc25519_to32bytes`. -/
def to32bytes (x : Sc25519) : List UInt8 := x.v.map UInt32.toUInt8

/-! ## Tests -/

/-- `sc25519_iszero_vartime`. -/
def iszeroVartime (x : Sc25519) : Bool := (List.range 32).all fun i => x.v.getD i 0 == 0

/-- `sc25519_isshort_vartime`. -/
def isshortVartime (x : Sc25519) : Bool := (List.range 16).all fun k => x.v.getD (31 - k) 0 == 0

/-- The loop of `sc25519_lt_vartime`, from the most significant word on. -/
def ltLoop : List UInt32 → List UInt32 → Bool
  | x :: xs, y :: ys => if x < y then true else if y < x then false else ltLoop xs ys
  | _, _ => false

/-- `sc25519_lt_vartime`. -/
def ltVartime (x y : Sc25519) : Bool := ltLoop x.v.reverse y.v.reverse

/-! ## Arithmetic -/

/-- `sc25519_add`. -/
def add (x y : Sc25519) : Sc25519 :=
  reduceAddSub ⟨carryLoop 0 (x.v.zipWith (· + ·) y.v), by
    rw [length_carryLoop, List.length_zipWith, x.length_v, y.length_v]
    rfl⟩

/-- The loop of `sc25519_sub_nored`, with the borrow `b`. -/
def subLoop : UInt32 → List UInt32 → List UInt32 → List UInt32
  | b, x :: xs, y :: ys =>
    let t := x - y - b
    (t &&& 255) :: subLoop ((t >>> 8) &&& 1) xs ys
  | _, _, _ => []

theorem length_subLoop : ∀ (b : UInt32) (x y : List UInt32),
    (subLoop b x y).length = min x.length y.length
  | _, [], _ => by simp [subLoop]
  | _, _ :: _, [] => by simp [subLoop]
  | _, _ :: xs, _ :: ys => by
    simp only [subLoop, List.length_cons, length_subLoop _ xs ys]
    omega

/-- `sc25519_sub_nored`. -/
def subNored (x y : Sc25519) : Sc25519 :=
  ⟨subLoop 0 x.v y.v, by rw [length_subLoop, x.length_v, y.length_v]; rfl⟩

/-- The sums of `sc25519_mul`, one byte in every word. -/
def mulWords (x y : Sc25519) : List UInt32 :=
  carryLoop 0 (accumulate (List.replicate 64 0) (products (fun _ => true) x.v y.v))

theorem length_mulWords (x y : Sc25519) : (mulWords x y).length = 64 := by
  rw [mulWords, length_carryLoop, length_accumulate, List.length_replicate]

/-- `sc25519_mul`. -/
def mul (x y : Sc25519) : Sc25519 := barrettReduce (mulWords x y) (length_mulWords x y)

/-- `sc25519_mul_shortsc`. -/
def mulShortsc (x : Sc25519) (y : Shortsc25519) : Sc25519 := mul x (fromShortsc y)

/-! ## Windows -/

/-- The bits of `mask`, after a shift to the right. -/
def shr (mask x k : UInt32) : UInt32 := (x >>> k) &&& mask

/-- The bits of `mask`, after a shift to the left. -/
def shl (mask x k : UInt32) : UInt32 := (x <<< k) &&& mask

/-- The first five digits of three bytes. -/
def window3Low (a b : UInt32) : List UInt32 :=
  [a &&& 7, shr 7 a 3, shr 7 a 6 ^^^ shl 7 b 2, shr 7 b 1, shr 7 b 4]

/-- The last three digits of three bytes. -/
def window3High (b c : UInt32) : List UInt32 :=
  [shr 7 b 7 ^^^ shl 7 c 1, shr 7 c 2, shr 7 c 5]

/-- The digits of `sc25519_window3`, before they are made signed. -/
def window3Digits (s : Sc25519) : List Int8 :=
  let v := fun i => s.v.getD i 0
  let r := (List.range 10).flatMap fun i =>
    window3Low (v (3 * i)) (v (3 * i + 1)) ++ window3High (v (3 * i + 1)) (v (3 * i + 2))
  (r ++ window3Low (v 30) (v 31)).map fun x => x.toUInt8.toInt8

/-- The first three digits of five bytes. -/
def window5Low (a b : UInt32) : List UInt32 :=
  [a &&& 31, shr 31 a 5 ^^^ shl 31 b 3, shr 31 b 2]

/-- The last five digits of five bytes. -/
def window5High (b c d e : UInt32) : List UInt32 :=
  [shr 31 b 7 ^^^ shl 31 c 1, shr 31 c 4 ^^^ shl 31 d 4, shr 31 d 1,
    shr 31 d 6 ^^^ shl 31 e 2, shr 31 e 3]

/-- The digits of `sc25519_window5`, before they are made signed. -/
def window5Digits (s : Sc25519) : List Int8 :=
  let v := fun i => s.v.getD i 0
  let r := (List.range 6).flatMap fun i =>
    window5Low (v (5 * i)) (v (5 * i + 1)) ++
      window5High (v (5 * i + 1)) (v (5 * i + 2)) (v (5 * i + 3)) (v (5 * i + 4))
  (r ++ window5Low (v 30) (v 31)).map fun x => x.toUInt8.toInt8

/-- The loop that makes digits of `w` bits signed, with the bits `mask` and the top bit `h`: the next
digit is `d`. -/
def makeSigned (w mask h : Int8) : Int8 → Int8 → List Int8 → List Int8
  | carry, d, [] => [d + carry]
  | carry, d, e :: r =>
    let d := d + carry
    let e := e + (d >>> w)
    let d := d &&& mask
    let carry := d >>> h
    (d - (carry <<< w)) :: makeSigned w mask h carry e r

/-- `sc25519_window3`. -/
def window3 (s : Sc25519) : List Int8 :=
  let r := window3Digits s
  makeSigned 3 7 2 0 (r.headD 0) r.tail

/-- `sc25519_window5`. -/
def window5 (s : Sc25519) : List Int8 :=
  let r := window5Digits s
  makeSigned 5 31 4 0 (r.headD 0) r.tail

/-- Two bits of each of two bytes, from the bit `k` on. -/
def interleaveBits (k x y : UInt32) : UInt32 := shr 3 x k ^^^ (shr 3 y k <<< 2)

/-- `sc25519_2interleave2`. -/
def interleave2 (s1 s2 : Sc25519) : List UInt8 :=
  let x := fun i => s1.v.getD i 0
  let y := fun i => s2.v.getD i 0
  let r := (List.range 31).flatMap fun i =>
    [0, 2, 4, 6].map fun k => interleaveBits k (x i) (y i)
  (r ++ [0, 2, 4].map fun k => interleaveBits k (x 31) (y 31)).map UInt32.toUInt8

end Sc25519
end Zedboard
