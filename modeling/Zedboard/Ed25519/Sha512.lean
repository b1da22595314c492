import Zedboard.Lib.Buffer
import Zedboard.Lib.MerkleDamgard

/-!
# SHA-512

The hash of the signatures: `sha512_context`, the compression function with its eight rounds for
every pass of the loop, and the three calls that take in a message piece by piece.

A pointer that may be null is an `Option`, and what a call returns stands in front of what it leaves
behind.
-/

set_option autoImplicit false

namespace Zedboard

/-! ## The compression function -/

/-- The array `K`. -/
def sha512K : List UInt64 :=
  [0x428a2f98d728ae22, 0x7137449123ef65cd, 0xb5c0fbcfec4d3b2f, 0xe9b5dba58189dbbc,
  0x3956c25bf348b538, 0x59f111f1b605d019, 0x923f82a4af194f9b, 0xab1c5ed5da6d8118,
  0xd807aa98a3030242, 0x12835b0145706fbe, 0x243185be4ee4b28c, 0x550c7dc3d5ffb4e2,
  0x72be5d74f27b896f, 0x80deb1fe3b1696b1, 0x9bdc06a725c71235, 0xc19bf174cf692694,
  0xe49b69c19ef14ad2, 0xefbe4786384f25e3, 0x0fc19dc68b8cd5b5, 0x240ca1cc77ac9c65,
  0x2de92c6f592b0275, 0x4a7484aa6ea6e483, 0x5cb0a9dcbd41fbd4, 0x76f988da831153b5,
  0x983e5152ee66dfab, 0xa831c66d2db43210, 0xb00327c898fb213f, 0xbf597fc7beef0ee4,
  0xc6e00bf33da88fc2, 0xd5a79147930aa725, 0x06ca6351e003826f, 0x142929670a0e6e70,
  0x27b70a8546d22ffc, 0x2e1b21385c26c926, 0x4d2c6dfc5ac42aed, 0x53380d139d95b3df,
  0x650a73548baf63de, 0x766a0abb3c77b2a8, 0x81c2c92e47edaee6, 0x92722c851482353b,
  0xa2bfe8a14cf10364, 0xa81a664bbc423001, 0xc24b8b70d0f89791, 0xc76c51a30654be30,
  0xd192e819d6ef5218, 0xd69906245565a910, 0xf40e35855771202a, 0x106aa07032bbd1b8,
  0x19a4c116b8d2d0c8, 0x1e376c085141ab53, 0x2748774cdf8eeb99, 0x34b0bcb5e19b48a8,
  0x391c0cb3c5c95a63, 0x4ed8aa4ae3418acb, 0x5b9cca4f7763e373, 0x682e6ff3d6b2b8a3,
  0x748f82ee5defb2fc, 0x78a5636f43172f60, 0x84c87814a1f0ab72, 0x8cc702081a6439ec,
  0x90befffa23631e28, 0xa4506cebde82bde9, 0xbef9a3f7b2c67915, 0xc67178f2e372532b,
  0xca273eceea26619c, 0xd186b8c721c0c207, 0xeada7dd6cde0eb1e, 0xf57d4f7fee6ed178,
  0x06f067aa72176fba, 0x0a637dc5a2c898a6, 0x113f9804bef90dae, 0x1b710b35131c471b,
  0x28db77f523047d84, 0x32caab7b40c72493, 0x3c9ebe0a15c9bebc, 0x431d67c49c100d4c,
  0x4cc5d4becb3e42b6, 0x597f299cfc657e2a, 0x5fcb6fab3ad6faec, 0x6c44198c4a475817]

/-- `ROR64c`. -/
def ror64c (x y : UInt64) : UInt64 := (x >>> (y &&& 63)) ||| (x <<< (64 - (y &&& 63)))

/-- `Ch`. -/
def chMacro (x y z : UInt64) : UInt64 := z ^^^ (x &&& (y ^^^ z))

/-- `Maj`. -/
def majMacro (x y z : UInt64) : UInt64 := ((x ||| y) &&& z) ||| (x &&& y)

def sigma0 (x : UInt64) : UInt64 := ror64c x 28 ^^^ ror64c x 34 ^^^ ror64c x 39

def sigma1 (x : UInt64) : UInt64 := ror64c x 14 ^^^ ror64c x 18 ^^^ ror64c x 41

def gamma0 (x : UInt64) : UInt64 := ror64c x 1 ^^^ ror64c x 8 ^^^ (x >>> 7)

def gamma1 (x : UInt64) : UInt64 := ror64c x 19 ^^^ ror64c x 61 ^^^ (x >>> 6)

/-- `LOAD64H` at the offset `o`. -/
def load64h (y : List UInt8) (o : Nat) : UInt64 :=
  ((y.getD o 0).toUInt64 <<< 56) ||| ((y.getD (o + 1) 0).toUInt64 <<< 48) |||
    ((y.getD (o + 2) 0).toUInt64 <<< 40) ||| ((y.getD (o + 3) 0).toUInt64 <<< 32) |||
    ((y.getD (o + 4) 0).toUInt64 <<< 24) ||| ((y.getD (o + 5) 0).toUInt64 <<< 16) |||
    ((y.getD (o + 6) 0).toUInt64 <<< 8) ||| (y.getD (o + 7) 0).toUInt64

/-- `STORE64H`. -/
def store64h (x : UInt64) : List UInt8 :=
  [((x >>> 56) &&& 255).toUInt8, ((x >>> 48) &&& 255).toUInt8, ((x >>> 40) &&& 255).toUInt8,
    ((x >>> 32) &&& 255).toUInt8, ((x >>> 24) &&& 255).toUInt8, ((x >>> 16) &&& 255).toUInt8,
    ((x >>> 8) &&& 255).toUInt8, (x &&& 255).toUInt8]

/-- The next word of `W`, from the ones before it. -/
def nextW (w : List UInt64) (i : Nat) : UInt64 :=
  gamma1 (w.getD (i - 2) 0) + w.getD (i - 7) 0 + gamma0 (w.getD (i - 15) 0) + w.getD (i - 16) 0

/-- The loop that fills `W[16..79]`, `n` words of it. -/
def fillW : Nat → List UInt64 → List UInt64
  | 0, w => w
  | n + 1, w => fillW n (w ++ [nextW w w.length])

/-- The array `W` for a block. -/
def scheduleW (buf : List UInt8) : List UInt64 :=
  fillW 64 ((List.range 16).map fun i => load64h buf (8 * i))

/-- `RND`.  The letters are places of the array `S`. -/
def rnd (s : Vector UInt64 8) (a b c d e f g h : Fin 8) (k w : UInt64) : Vector UInt64 8 :=
  let t0 := s[h] + sigma1 s[e] + chMacro s[e] s[f] s[g] + k + w
  let t1 := sigma0 s[a] + majMacro s[a] s[b] s[c]
  (s.set d (s[d] + t0)).set h (t0 + t1)

/-- One pass of the loop of rounds.  The words stay where they are; their names move. -/
def rounds8 (w : List UInt64) (s : Vector UInt64 8) (i : Nat) : Vector UInt64 8 :=
  let s := rnd s 0 1 2 3 4 5 6 7 (sha512K.getD (i + 0) 0) (w.getD (i + 0) 0)
  let s := rnd s 7 0 1 2 3 4 5 6 (sha512K.getD (i + 1) 0) (w.getD (i + 1) 0)
  let s := rnd s 6 7 0 1 2 3 4 5 (sha512K.getD (i + 2) 0) (w.getD (i + 2) 0)
  let s := rnd s 5 6 7 0 1 2 3 4 (sha512K.getD (i + 3) 0) (w.getD (i + 3) 0)
  let s := rnd s 4 5 6 7 0 1 2 3 (sha512K.getD (i + 4) 0) (w.getD (i + 4) 0)
  let s := rnd s 3 4 5 6 7 0 1 2 (sha512K.getD (i + 5) 0) (w.getD (i + 5) 0)
  let s := rnd s 2 3 4 5 6 7 0 1 (sha512K.getD (i + 6) 0) (w.getD (i + 6) 0)
  rnd s 1 2 3 4 5 6 7 0 (sha512K.getD (i + 7) 0) (w.getD (i + 7) 0)

/-- `sha512_compress` on the state.  It always returns `0`. -/
def sha512Compress (state : Vector UInt64 8) (buf : List UInt8) : Vector UInt64 8 :=
  let w := scheduleW buf
  let s := (List.range 10).foldl (fun s r => rounds8 w s (8 * r)) state
  state.zipWith (· + ·) s

/-! ## The context -/

/-- `sha512_context`. -/
structure Sha512Context where
  length : UInt64
  state : Vector UInt64 8
  curlen : Nat
  buf : List UInt8
  length_buf : buf.length = 128

namespace Sha512Context

/-- Write a run of bytes into the buffer, at `curlen` and up. -/
def put (md : Sha512Context) (xs : List UInt8) : Sha512Context :=
  { md with
    buf := patch md.buf md.curlen xs
    curlen := md.curlen + xs.length
    length_buf := by rw [length_patch, md.length_buf] }

/-- Take in a block of the padding. -/
def compress (md : Sha512Context) (data : List UInt8) : Sha512Context :=
  { md with state := sha512Compress md.state data }

/-- Take in a block and count its bits. -/
def block (md : Sha512Context) (data : List UInt8) : Sha512Context :=
  { md with state := sha512Compress md.state data, length := md.length + 128 * 8 }

theorem curlen_block (md : Sha512Context) (data : List UInt8) :
    (md.block data).curlen = md.curlen := by
  rw [block]

def empty (md : Sha512Context) : Sha512Context := { md with curlen := 0 }

@[simp] theorem curlen_empty (md : Sha512Context) : md.empty.curlen = 0 := rfl

/-- Fill the buffer up to `k` with zeros. -/
def zeros (md : Sha512Context) (k : Nat) : Sha512Context :=
  md.put (List.replicate (k - md.curlen) 0)

theorem curlen_put_take (md : Sha512Context) {inp : List UInt8} {n : Nat} (h : n ≤ inp.length) :
    (md.put (inp.take n)).curlen = md.curlen + n := by
  rw [put, List.length_take, Nat.min_eq_left h]

/-- Store the number of bits at the end of the buffer. -/
def storeLength (md : Sha512Context) : Sha512Context :=
  { md with
    buf := patch md.buf 120 (store64h md.length)
    length_buf := by rw [length_patch, md.length_buf] }

/-- Put zeros and the number of bits into the buffer, and take it in. -/
def lastBlock (md : Sha512Context) : Sha512Context :=
  (md.zeros 120).storeLength.compress (md.zeros 120).storeLength.buf

/-- Count the bits of the bytes in the buffer. -/
def countHeld (md : Sha512Context) : Sha512Context :=
  { md with length := md.length + UInt64.ofNat md.curlen * 8 }

/-- The padding of `sha512_final`.  A buffer with no room for the number of bits is taken in before
the last block. -/
def finish (md : Sha512Context) : Sha512Context :=
  let md := md.countHeld.put [0x80]
  let md := if 112 < md.curlen then ((md.zeros 128).compress (md.zeros 128).buf).empty else md
  md.lastBlock

/-- The bytes in the buffer that no block has taken in yet. -/
def held (md : Sha512Context) : List UInt8 := md.buf.take md.curlen

end Sha512Context

/-- `sha512_init`. -/
def sha512Init : Option Sha512Context → Nat × Option Sha512Context
  | none => (1, none)
  | some md => (0, some
    { md with
      curlen := 0
      length := 0
      state := #v[0x6a09e667f3bcc908, 0xbb67ae8584caa73b, 0x3c6ef372fe94f82b,
        0xa54ff53a5f1d36f1, 0x510e527fade682d1, 0x9b05688c2b3e6c1f,
        0x1f83d9abfb41bd6b, 0x5be0cd19137e2179] })

/-- The loop of `sha512_update`. -/
def sha512UpdateLoop (md : Sha512Context) (h : md.curlen ≤ 128) (inp : List UInt8) :
    Sha512Context :=
  if hinp : 0 < inp.length then
    if md.curlen = 0 ∧ 128 ≤ inp.length then
      sha512UpdateLoop (md.block (inp.take 128)) (by rwa [md.curlen_block]) (inp.drop 128)
    else
      let n := min inp.length (128 - md.curlen)
      let md' := md.put (inp.take n)
      if hfull : md'.curlen = 128 then
        sha512UpdateLoop (md'.block md'.buf).empty (by rw [Sha512Context.curlen_empty]; omega) (inp.drop n)
      else
        have hn : md'.curlen = md.curlen + n := md.curlen_put_take (Nat.min_le_left _ _)
        sha512UpdateLoop md' (by omega) (inp.drop n)
  else md
termination_by (inp.length, md.curlen)
decreasing_by
  · rw [List.length_drop]
    exact Prod.Lex.left _ _ (by omega)
  · rw [List.length_drop]
    rcases Nat.lt_or_ge md.curlen 128 with hlt | hge
    · exact Prod.Lex.left _ _ (by omega)
    · -- a full buffer takes in nothing, and is empty the next time
      have hnone : inp.length - n = inp.length := by omega
      rw [hnone, Sha512Context.curlen_empty]
      exact Prod.Lex.right _ (Nat.lt_of_lt_of_le (by decide) hge)
  · rw [List.length_drop]
    exact Prod.Lex.left _ _ (by omega)

/-- `sha512_update`. -/
def sha512Update (md : Option Sha512Context) (inp : Option (List UInt8)) :
    Nat × Option Sha512Context :=
  match md, inp with
  | none, _ => (1, none)
  | some md, none => (1, some md)
  | some md, some inp =>
    if h : md.curlen ≤ 128 then (0, some (sha512UpdateLoop md h inp)) else (1, some md)

/-- The digest as `sha512_final` writes it, a word at a time. -/
def copyOutput (state : Vector UInt64 8) (out : List UInt8) : List UInt8 :=
  (List.range 8).foldl (fun out i => patch out (8 * i) (store64h (state.toList.getD i 0))) out

/-- `sha512_final`. -/
def sha512Final (md : Option Sha512Context) (out : Option (List UInt8)) :
    Nat × Option Sha512Context × Option (List UInt8) :=
  match md, out with
  | none, out => (1, none, out)
  | some md, none => (1, some md, none)
  | some md, some out =>
    if 128 ≤ md.curlen then (1, some md, some out)
    else
      let md := md.finish
      (0, some md, some (copyOutput md.state out))

/-- `sha512`.  What the context on the stack contains is of no account. -/
def sha512 (ctx : Sha512Context) (message : Option (List UInt8)) (out : Option (List UInt8)) :
    Nat × Option (List UInt8) :=
  match sha512Init (some ctx) with
  | (0, ctx) =>
    match sha512Update ctx message with
    | (0, ctx) =>
      match sha512Final ctx out with
      | (0, _, out) => (0, out)
      | (ret, _, out) => (ret, out)
    | (ret, _) => (ret, out)
  | (ret, _) => (ret, out)

/-- `crypto_hash_sha512`. -/
def cryptoHashSha512 (ctx : Sha512Context) (dst src : Option (List UInt8)) :
    Nat × Option (List UInt8) := sha512 ctx src dst

end Zedboard
