import Zedboard.Ed25519.Base
import Zedboard.Ed25519.Fe25519
import Zedboard.Ed25519.Sc25519
import Zedboard.Lib.Radix

/-!
# Arithmetic on the curve

`ge25519`: the twisted Edwards curve `-x^2 + y^2 = 1 + dx^2y^2`, with points in extended coordinates
and formulas without divisions.  Multiples of the base point come from a table of affine points;
which of them, is decided by moves that do not branch on the digit.
-/

set_option autoImplicit false

namespace Zedboard

/-- The field element with the bytes of a number. -/
def Fe25519.ofNat (n : Nat) : Fe25519 where
  v := (List.range 32).map fun k => UInt32.ofNat (digit 256 n k)
  length_v := by rw [List.length_map, List.length_range]

/-- `ge25519`, which is also `ge25519_p3`. -/
structure Ge25519 where
  x : Fe25519
  y : Fe25519
  z : Fe25519
  t : Fe25519

/-- `ge25519_p1p1`. -/
structure Ge25519P1p1 where
  x : Fe25519
  z : Fe25519
  y : Fe25519
  t : Fe25519

/-- `ge25519_p2`. -/
structure Ge25519P2 where
  x : Fe25519
  y : Fe25519
  z : Fe25519

/-- `ge25519_aff`. -/
structure Ge25519Aff where
  x : Fe25519
  y : Fe25519

namespace Ge25519

open Fe25519

/-! ## Constants -/

/-- `ge25519_ecd`. -/
def ecd : Fe25519 :=
  ⟨[0xA3, 0x78, 0x59, 0x13, 0xCA, 0x4D, 0xEB, 0x75, 0xAB, 0xD8, 0x41, 0x41, 0x4D, 0x0A, 0x70, 0x00,
    0x98, 0xE8, 0x79, 0x77, 0x79, 0x40, 0xC7, 0x8C, 0x73, 0xFE, 0x6F, 0x2B, 0xEE, 0x6C, 0x03, 0x52],
    rfl⟩

/-- `ge25519_ec2d`. -/
def ec2d : Fe25519 :=
  ⟨[0x59, 0xF1, 0xB2, 0x26, 0x94, 0x9B, 0xD6, 0xEB, 0x56, 0xB1, 0x83, 0x82, 0x9A, 0x14, 0xE0, 0x00,
    0x30, 0xD1, 0xF3, 0xEE, 0xF2, 0x80, 0x8E, 0x19, 0xE7, 0xFC, 0xDF, 0x56, 0xDC, 0xD9, 0x06, 0x24],
    rfl⟩

/-- `ge25519_sqrtm1`. -/
def sqrtm1 : Fe25519 :=
  ⟨[0xB0, 0xA0, 0x0E, 0x4A, 0x27, 0x1B, 0xEE, 0xC4, 0x78, 0xE4, 0x2F, 0xAD, 0x06, 0x18, 0x43, 0x2F,
    0xA7, 0xD7, 0xFB, 0x3D, 0x99, 0x00, 0x4D, 0x2B, 0x0B, 0xDF, 0xC1, 0x4F, 0x80, 0x24, 0x83, 0x2B],
    rfl⟩

/-- `ge25519_base`. -/
def base : Ge25519 where
  x := ⟨[0x1A, 0xD5, 0x25, 0x8F, 0x60, 0x2D, 0x56, 0xC9, 0xB2, 0xA7, 0x25, 0x95, 0x60, 0xC7, 0x2C,
    0x69, 0x5C, 0xDC, 0xD6, 0xFD, 0x31, 0xE2, 0xA4, 0xC0, 0xFE, 0x53, 0x6E, 0xCD, 0xD3, 0x36, 0x69,
    0x21], rfl⟩
  y := ⟨0x58 :: List.replicate 31 0x66, rfl⟩
  z := ⟨0x01 :: List.replicate 31 0x00, rfl⟩
  t := ⟨[0xA3, 0xDD, 0xB7, 0xA5, 0xB3, 0x8A, 0xDE, 0x6D, 0xF5, 0x52, 0x51, 0x77, 0x80, 0x9F, 0xF0,
    0x20, 0x7D, 0xE3, 0xAB, 0x64, 0x8E, 0x4E, 0xEA, 0x66, 0x65, 0x76, 0x8B, 0xD7, 0x0F, 0x5F, 0x87,
    0x67], rfl⟩

/-- `ge25519_base_multiples_affine`. -/
def baseMultiplesAffine (i : Nat) : Ge25519Aff :=
  let e := ge25519BaseData.getD i (0, 0)
  ⟨ofNat e.1, ofNat e.2⟩

/-! ## Coordinates -/

/-- The cast `(ge25519_p2 *)`, read. -/
def toP2 (r : Ge25519) : Ge25519P2 := ⟨r.x, r.y, r.z⟩

/-- The cast `(ge25519_p2 *)`, written through: `t` is left alone. -/
def setP2 (r : Ge25519) (q : Ge25519P2) : Ge25519 := ⟨q.x, q.y, q.z, r.t⟩

/-- `p1p1_to_p2`. -/
def p1p1ToP2 (p : Ge25519P1p1) : Ge25519P2 := ⟨mul p.x p.t, mul p.y p.z, mul p.z p.t⟩

/-- `p1p1_to_p3`. -/
def p1p1ToP3 (p : Ge25519P1p1) : Ge25519 :=
  let q := p1p1ToP2 p
  ⟨q.x, q.y, q.z, mul p.x p.y⟩

/-! ## Sums -/

/-- `ge25519_mixadd2`. -/
def mixadd2 (r : Ge25519) (q : Ge25519Aff) : Ge25519 :=
  let qt := mul q.x q.y
  let a := sub r.y r.x -- A = (Y1-X1)*(Y2-X2)
  let b := Fe25519.add r.y r.x -- B = (Y1+X1)*(Y2+X2)
  let t1 := sub q.y q.x
  let t2 := Fe25519.add q.y q.x
  let a := mul a t1
  let b := mul b t2
  let e := sub b a -- E = B-A
  let h := Fe25519.add b a -- H = B+A
  let c := mul r.t qt -- C = T1*k*T2
  let c := mul c ec2d
  let d := Fe25519.add r.z r.z -- D = Z1*2
  let f := sub d c -- F = D-C
  let g := Fe25519.add d c -- G = D+C
  ⟨mul e f, mul h g, mul g f, mul e h⟩

/-- `add_p1p1`. -/
def addP1p1 (p q : Ge25519) : Ge25519P1p1 :=
  let a := sub p.y p.x -- A = (Y1-X1)*(Y2-X2)
  let t := sub q.y q.x
  let a := mul a t
  let b := Fe25519.add p.x p.y -- B = (Y1+X1)*(Y2+X2)
  let t := Fe25519.add q.x q.y
  let b := mul b t
  let c := mul p.t q.t -- C = T1*k*T2
  let c := mul c ec2d
  let d := mul p.z q.z -- D = Z1*2*Z2
  let d := Fe25519.add d d
  { x := sub b a, t := sub d c, z := Fe25519.add d c, y := Fe25519.add b a }

/-- `dbl_p1p1`. -/
def dblP1p1 (p : Ge25519P2) : Ge25519P1p1 :=
  let a := square p.x
  let b := square p.y
  let c := square p.z
  let c := Fe25519.add c c
  let d := neg a
  let x := Fe25519.add p.x p.y
  let x := square x
  let x := sub x a
  let x := sub x b
  let z := Fe25519.add d b
  { x, z, t := sub z c, y := sub d b }

/-! ## The table -/

/-- `cmov_aff`. -/
def cmovAff (r p : Ge25519Aff) (b : UInt8) : Ge25519Aff := ⟨cmov r.x p.x b, cmov r.y p.y b⟩

/-- `equal`. -/
def equal (b c : Int8) : UInt8 := (((b.toUInt8 ^^^ c.toUInt8).toUInt32 - 1) >>> 31).toUInt8

/-- `negative`. -/
def negative (b : Int8) : UInt8 := (b.toInt64.toUInt64 >>> 63).toUInt8

/-- `choose_t`. -/
def chooseT (pos : Nat) (b : Int8) : Ge25519Aff :=
  let t := baseMultiplesAffine (5 * pos + 0)
  let t := cmovAff t (baseMultiplesAffine (5 * pos + 1)) (equal b 1 ||| equal b (-1))
  let t := cmovAff t (baseMultiplesAffine (5 * pos + 2)) (equal b 2 ||| equal b (-2))
  let t := cmovAff t (baseMultiplesAffine (5 * pos + 3)) (equal b 3 ||| equal b (-3))
  let t := cmovAff t (baseMultiplesAffine (5 * pos + 4)) (equal b (-4))
  let v := neg t.x
  { t with x := cmov t.x v (negative b) }

/-- `setneutral`. -/
def setneutral : Ge25519 := ⟨setzero, setone, setone, setzero⟩

/-! ## Exported functions -/

/-- `ge25519_unpackneg_vartime`: `0` on success, `-1` otherwise, and the point. -/
def unpacknegVartime (r : Ge25519) (p : List UInt8) : Int × Ge25519 :=
  let z := setone
  let par := p.getD 31 0 >>> 7
  let y := unpack p
  let num := square y -- x = y^2
  let den := mul num ecd -- den = dy^2
  let num := sub num z -- x = y^2-1
  let den := Fe25519.add z den -- den = dy^2+1
  -- the square root of num/den
  let den2 := square den
  let den4 := square den2
  let den6 := mul den4 den2
  let t := mul den6 num
  let t := mul t den
  let t := pow2523 t
  let t := mul t num
  let t := mul t den
  let t := mul t den
  let x := mul t den
  let chk := square x
  let chk := mul chk den
  let x := if iseqVartime chk num then x else mul x sqrtm1
  let chk := square x
  let chk := mul chk den
  if iseqVartime chk num then
    let x := if getparity x ≠ 1 - par then neg x else x
    (0, ⟨x, y, z, mul x y⟩)
  else (-1, ⟨x, y, z, r.t⟩)

/-- `ge25519_pack`. -/
def pack (p : Ge25519) : List UInt8 :=
  let zi := invert p.z
  let tx := mul p.x zi
  let ty := mul p.y zi
  (Fe25519.pack ty).modify 31 fun b => b ^^^ (getparity tx <<< 7)

/-- `ge25519_isneutral_vartime`. -/
def isneutralVartime (p : Ge25519) : Bool := iszero p.x ≠ 0 && iseqVartime p.y p.z

/-- The array `pre` of `ge25519_double_scalarmult_vartime`. -/
def precomputed (p1 p2 : Ge25519) : List Ge25519 :=
  let add p q := p1p1ToP3 (addP1p1 p q)
  let dbl p := p1p1ToP3 (dblP1p1 (toP2 p))
  let pre2 := dbl p1
  let pre3 := add p1 pre2
  let pre5 := add p1 p2
  let pre6 := add pre2 p2
  let pre7 := add pre3 p2
  let pre8 := dbl p2
  let pre9 := add p1 pre8
  let pre10 := dbl pre5
  let pre11 := add pre3 pre8
  let pre12 := add p2 pre8
  let pre13 := add p1 pre12
  let pre14 := add pre2 pre12
  let pre15 := add pre3 pre12
  [setneutral, p1, pre2, pre3, p2, pre5, pre6, pre7, pre8, pre9, pre10, pre11, pre12, pre13, pre14,
    pre15]

/-- One round of the loop in `ge25519_double_scalarmult_vartime`. -/
def doubleRound (pre : List Ge25519) (b : List UInt8) (r : Ge25519) (i : Nat) : Ge25519 :=
  let tp1p1 := dblP1p1 (toP2 r)
  let r := setP2 r (p1p1ToP2 tp1p1)
  let tp1p1 := dblP1p1 (toP2 r)
  let (r, tp1p1) :=
    if b.getD i 0 ≠ 0 then
      let r := p1p1ToP3 tp1p1
      (r, addP1p1 r (pre.getD (b.getD i 0).toNat setneutral))
    else (r, tp1p1)
  if i ≠ 0 then setP2 r (p1p1ToP2 tp1p1) else p1p1ToP3 tp1p1

/-- `ge25519_double_scalarmult_vartime`: computes `[s1]p1 + [s2]p2`. -/
def doubleScalarmultVartime (p1 : Ge25519) (s1 : Sc25519) (p2 : Ge25519) (s2 : Sc25519) : Ge25519 :=
  let pre := precomputed p1 p2
  let b := Sc25519.interleave2 s1 s2
  (List.range 126).reverse.foldl (doubleRound pre b) (pre.getD (b.getD 126 0).toNat setneutral)

/-- `ge25519_scalarmult_base`. -/
def scalarmultBase (s : Sc25519) : Ge25519 :=
  let b := Sc25519.window3 s
  let t := chooseT 0 (b.getD 0 0)
  let r : Ge25519 := ⟨t.x, t.y, setone, mul t.x t.y⟩
  (List.range 84).foldl (fun r i => mixadd2 r (chooseT (i + 1) (b.getD (i + 1) 0))) r

end Ge25519
end Zedboard
