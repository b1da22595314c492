import Zedboard.Lib.Limbs

/-!
# Field elements

`fe25519`: numbers modulo `2 ^ 255 - 19` in thirty-two words of eight bits and something.  The words
are reduced as far as the next operation needs it and no further, and only `freeze` looks at the
number as a whole.
-/

set_option autoImplicit false

namespace Zedboard

/-- `fe25519`. -/
@[ext] structure Fe25519 where
  v : List UInt32
  length_v : v.length = 32

namespace Fe25519

/-! ## Words -/

/-- `equal`, for inputs of 16 bits. -/
def equal (a b : UInt32) : UInt32 := ((a ^^^ b) - 1) >>> 31

/-- `ge`, for inputs of 16 bits. -/
def ge (a b : UInt32) : UInt32 := ((a - b) >>> 31) ^^^ 1

def times19 (a : UInt32) : UInt32 := (a <<< 4) + (a <<< 1) + a

def times38 (a : UInt32) : UInt32 := (a <<< 5) + (a <<< 2) + (a <<< 1)

/-! ## Reduction -/

/-- One pass of the loops in `reduce_add_sub` and `reduce_mul`: what is above bit 255 comes back in
at the bottom. -/
def reducePass (v : List UInt32) : List UInt32 :=
  carryLoop (times19 (v.getD 31 0 >>> 7)) (v.set 31 (v.getD 31 0 &&& 127))

@[simp] theorem length_reducePass (v : List UInt32) : (reducePass v).length = v.length := by
  rw [reducePass, length_carryLoop, List.length_set]

theorem length_iterate_reducePass (n : Nat) {v : List UInt32} (h : v.length = 32) :
    (reducePass^[n] v).length = 32 := by
  induction n generalizing v with
  | zero => exact h
  | succ n ih => exact ih (by rwa [length_reducePass])

/-- `reduce_add_sub`. -/
def reduceAddSub (v : List UInt32) (h : v.length = 32) : Fe25519 :=
  ⟨reducePass^[4] v, length_iterate_reducePass 4 h⟩

/-- `reduce_mul`. -/
def reduceMul (v : List UInt32) (h : v.length = 32) : Fe25519 :=
  ⟨reducePass^[2] v, length_iterate_reducePass 2 h⟩

/-- The words of the modulus. -/
def modulusWords : List UInt32 := 237 :: (List.replicate 30 255 ++ [127])

/-- The mask of `fe25519_freeze`: all ones if the words say that the modulus is to be subtracted. -/
def freezeMask (v : List UInt32) : UInt32 :=
  let m := equal (v.getD 31 0) 127
  let m := (List.range 30).foldl (fun m k => m &&& equal (v.getD (30 - k) 0) 255) m
  let m := m &&& ge (v.getD 0 0) 237
  0 - m

/-- `fe25519_freeze`. -/
def freeze (r : Fe25519) : Fe25519 where
  v := r.v.zipWith (fun x w => x - (freezeMask r.v &&& w)) modulusWords
  length_v := by
    rw [List.length_zipWith, r.length_v]
    rfl

/-! ## Bytes, tests and moves -/

/-- `fe25519_unpack`. -/
def unpack (x : List UInt8) : Fe25519 :=
  let v := (List.range 32).map fun i => (x.getD i 0).toUInt32
  ⟨v.set 31 (v.getD 31 0 &&& 127), by rw [List.length_set, List.length_map, List.length_range]⟩

/-- `fe25519_pack`.  Assumes input x being reduced below 2^255. -/
def pack (x : Fe25519) : List UInt8 := (freeze x).v.map UInt32.toUInt8

/-- `fe25519_iszero`. -/
def iszero (x : Fe25519) : UInt32 :=
  let t := freeze x
  (List.range 31).foldl (fun r k => r &&& equal (t.v.getD (k + 1) 0) 0) (equal (t.v.getD 0 0) 0)

/-- `fe25519_iseq_vartime`. -/
def iseqVartime (x y : Fe25519) : Bool :=
  let t1 := freeze x
  let t2 := freeze y
  (List.range 32).all fun i => t1.v.getD i 0 == t2.v.getD i 0

/-- `fe25519_cmov`. -/
def cmov (r x : Fe25519) (b : UInt8) : Fe25519 where
  v := r.v.zipWith (fun r x => r ^^^ (-b.toUInt32 &&& (x ^^^ r))) x.v
  length_v := by rw [List.length_zipWith, r.length_v, x.length_v, Nat.min_self]

/-- `fe25519_getparity`. -/
def getparity (x : Fe25519) : UInt8 := ((freeze x).v.getD 0 0 &&& 1).toUInt8

/-- `fe25519_setone`. -/
def setone : Fe25519 := ⟨1 :: List.replicate 31 0, by decide⟩

/-- `fe25519_setzero`. -/
def setzero : Fe25519 := ⟨List.replicate 32 0, by decide⟩

/-! ## Arithmetic -/

/-- `fe25519_add`. -/
def add (x y : Fe25519) : Fe25519 :=
  reduceAddSub (x.v.zipWith (· + ·) y.v)
    (by rw [List.length_zipWith, x.length_v, y.length_v, Nat.min_self])

/-- What `fe25519_sub` adds before it subtracts. -/
def subWords : List UInt32 := 0x1da :: (List.replicate 30 0x1fe ++ [0xfe])

/-- `fe25519_sub`. -/
def sub (x y : Fe25519) : Fe25519 :=
  let t := x.v.zipWith (· + ·) subWords
  reduceAddSub (t.zipWith (· - ·) y.v) (by
    rw [List.length_zipWith, List.length_zipWith, x.length_v, y.length_v]
    rfl)

/-- `fe25519_neg`. -/
def neg (x : Fe25519) : Fe25519 := sub setzero x

/-- The sums `t` of `fe25519_mul`. -/
def mulWords (x y : Fe25519) : List UInt32 :=
  accumulate (List.replicate 63 0) (products (fun _ => true) x.v y.v)

/-- The words above `2 ^ 256` come back in at the bottom. -/
def foldWords (t : List UInt32) : List UInt32 :=
  (List.range 31).map (fun i => t.getD i 0 + times38 (t.getD (i + 32) 0)) ++ [t.getD 31 0]

theorem length_foldWords (t : List UInt32) : (foldWords t).length = 32 := by
  rw [foldWords, List.length_append, List.length_map, List.length_range, List.length_singleton]

/-- `fe25519_mul`. -/
def mul (x y : Fe25519) : Fe25519 :=
  reduceMul (foldWords (mulWords x y)) (length_foldWords _)

/-- `fe25519_square`. -/
def square (x : Fe25519) : Fe25519 := mul x x

/-- `fe25519_invert`. -/
def invert (x : Fe25519) : Fe25519 :=
  let z2 := square x
  let t1 := square z2
  let t0 := square t1
  let z9 := mul t0 x
  let z11 := mul z9 z2
  let t0 := square z11
  let z2_5_0 := mul t0 z9
  let t0 := square z2_5_0
  let t1 := square t0
  let t0 := square t1
  let t1 := square t0
  let t0 := square t1
  let z2_10_0 := mul t0 z2_5_0
  let t0 := square z2_10_0
  let t1 := square t0
  let t1 := (fun t => square (square t))^[4] t1
  let z2_20_0 := mul t1 z2_10_0
  let t0 := square z2_20_0
  let t1 := square t0
  let t1 := (fun t => square (square t))^[9] t1
  let t0 := mul t1 z2_20_0
  let t1 := square t0
  let t0 := square t1
  let t0 := (fun t => square (square t))^[4] t0
  let z2_50_0 := mul t0 z2_10_0
  let t0 := square z2_50_0
  let t1 := square t0
  let t1 := (fun t => square (square t))^[24] t1
  let z2_100_0 := mul t1 z2_50_0
  let t1 := square z2_100_0
  let t0 := square t1
  let t0 := (fun t => square (square t))^[49] t0
  let t1 := mul t0 z2_100_0
  let t0 := square t1
  let t1 := square t0
  let t1 := (fun t => square (square t))^[24] t1
  let t0 := mul t1 z2_50_0
  let t1 := square t0
  let t0 := square t1
  let t1 := square t0
  let t0 := square t1
  let t1 := square t0
  mul t1 z11

/-- `fe25519_pow2523`. -/
def pow2523 (x : Fe25519) : Fe25519 :=
  let z2 := square x
  let t := square z2
  let t := square t
  let z9 := mul t x
  let z11 := mul z9 z2
  let t := square z11
  let z2_5_0 := mul t z9
  let t := square z2_5_0
  let t := square^[4] t
  let z2_10_0 := mul t z2_5_0
  let t := square z2_10_0
  let t := square^[9] t
  let z2_20_0 := mul t z2_10_0
  let t := square z2_20_0
  let t := square^[19] t
  let t := mul t z2_20_0
  let t := square t
  let t := square^[9] t
  let z2_50_0 := mul t z2_10_0
  let t := square z2_50_0
  let t := square^[49] t
  let z2_100_0 := mul t z2_50_0
  let t := square z2_100_0
  let t := square^[99] t
  let t := mul t z2_100_0
  let t := square t
  let t := square^[49] t
  let t := mul t z2_50_0
  let t := square t
  let t := square t
  mul t x

end Fe25519
end Zedboard
