import Zedboard.Ed25519.Pack
import Zedboard.Ed25519.PrimeOrder
import Zedboard.Ed25519.Sha512Stream

/-!
# Keys and signatures

`crypto_sign_keypair` and `crypto_sign`.  A signature of `m` is the bytes of a point `R` and a scalar
`S` with `[S]B = R + [k]A`, where `A` is the point of the key and `k` the hash of `R`, the key and `m`.
-/

set_option autoImplicit false

namespace Zedboard

open Ge25519 Sha512

/-! ## The functions -/

/-- An array for a hash, and the context of the call that fills it, with what they contain before. -/
structure HashLocal where
  ctx : Sha512Context
  out : List UInt8
  length_out : out.length = 64

/-- The array after `crypto_hash_sha512`. -/
def HashLocal.hash (l : HashLocal) (m : List UInt8) : List UInt8 :=
  (cryptoHashSha512 l.ctx (some l.out) (some m)).2.getD l.out

/-- The bits that both functions set and clear in the hash of the seed. -/
def clamp (az : List UInt8) : List UInt8 :=
  ((az.modify 0 (· &&& 248)).modify 31 (· &&& 127)).modify 31 (· ||| 64)

/-- `crypto_sign_keypair`, with the random bytes: what it returns, and `pk` and `sk`. -/
def cryptoSignKeypair (random : List UInt8) (az : HashLocal) (pk sk : List UInt8) :
    Int × List UInt8 × List UInt8 :=
  let sk := patch sk 0 random
  let az := clamp (az.hash (sk.take 32))
  let scsk := Sc25519.from32bytes (az.take 32)
  let gepk := scalarmultBase scsk
  let pk := patch pk 0 (pack gepk)
  let sk := patch sk 32 (pk.take 32)
  (0, pk, sk)

/-- `crypto_sign`: what it returns, `*smlen` and `sm`. -/
def cryptoSign (az nonce hram : HashLocal) (sm m sk : List UInt8) : Int × UInt64 × List UInt8 :=
  let pk := (sk.drop 32).take 32
  let az := clamp (az.hash (sk.take 32))
  let smlen := UInt64.ofNat m.length + 64
  let sm := patch sm 64 m
  let sm := patch sm 32 ((az.drop 32).take 32)
  -- sm: 32-byte uninit, 32-byte z, mlen-byte m
  let nonce := nonce.hash ((sm.drop 32).take (m.length + 32))
  let sck := Sc25519.from64bytes nonce
  let ger := scalarmultBase sck
  let sm := patch sm 0 (pack ger)
  let sm := patch sm 32 pk
  -- sm: 32-byte R, 32-byte A, mlen-byte m
  let hram := hram.hash (sm.take (m.length + 64))
  let scs := Sc25519.from64bytes hram
  let scsk := Sc25519.from32bytes (az.take 32)
  let scs := Sc25519.mul scs scsk
  let scs := Sc25519.add scs sck
  let sm := patch sm 32 (Sc25519.to32bytes scs)
  (0, smlen, sm)

/-! ## Hashes -/

/-- Bytes as a number, least significant first. -/
def decode (b : List UInt8) : Nat := Nat.ofDigits 256 (b.map UInt8.toNat)

/-- The factor of a key: of the first half of the hash, the three low bits and the top bit cleared and
the bit below the top one set. -/
def secretScalar (seed : List UInt8) : Nat :=
  2 ^ 254 + decode ((digest seed).take 32) % 2 ^ 254 / 8 * 8

/-- The factor of the point `R`. -/
def nonceScalar (seed m : List UInt8) : Nat := decode (digest ((digest seed).drop 32 ++ m))

/-- The factor of the key in a signature. -/
def challenge (r pk m : List UInt8) : Nat := decode (digest (r ++ (pk ++ m)))

theorem length_digest (m : List UInt8) : (digest m).length = 64 := by
  rw [digest, List.length_flatMap]
  simp

theorem HashLocal.hash_eq (l : HashLocal) {m : List UInt8} (h : m.length < 2 ^ 61) :
    l.hash m = digest m := by
  have hlen : 0 + (digest m).length ≤ l.out.length := by
    rw [length_digest, l.length_out]
  rw [HashLocal.hash, cryptoHashSha512_eq _ _ _ h, Option.getD_some, patch_eq hlen,
    List.take_zero, List.nil_append, List.drop_of_length_le, List.append_nil]
  rw [length_digest, l.length_out]

theorem length_clamp (az : List UInt8) : (clamp az).length = az.length := by
  rw [clamp, List.length_modify, List.length_modify, List.length_modify]

theorem drop_clamp (az : List UInt8) : (clamp az).drop 32 = az.drop 32 := by
  refine List.ext_getElem? fun i => ?_
  have h0 : ¬0 = 32 + i := by omega
  have h31 : ¬31 = 32 + i := by omega
  rw [List.getElem?_drop, List.getElem?_drop, clamp]
  simp only [List.getElem?_modify, h0, h31, if_false, id_map']

set_option maxRecDepth 2000 in
theorem and_248 (b : UInt8) : (b &&& 248).toNat = b.toNat / 8 * 8 := by
  have h : ∀ n < 256, (UInt8.ofNat n &&& 248).toNat = n / 8 * 8 := by decide
  have hb := h b.toNat b.toNat_lt
  rwa [UInt8.ofNat_toNat] at hb

set_option maxRecDepth 2000 in
theorem and_127_or_64 (b : UInt8) : ((b &&& 127) ||| 64).toNat = b.toNat % 64 + 64 := by
  have h : ∀ n < 256, ((UInt8.ofNat n &&& 127) ||| 64).toNat = n % 64 + 64 := by decide
  have hb := h b.toNat b.toNat_lt
  rwa [UInt8.ofNat_toNat] at hb

theorem modify_append_cons {α : Type*} (f : α → α) (x : α) (r : List α) :
    ∀ p : List α, (p ++ x :: r).modify p.length f = p ++ f x :: r
  | [] => rfl
  | y :: p => by
    rw [List.cons_append, List.length_cons, List.modify_succ_cons, modify_append_cons f x r p,
      List.cons_append]

/-- The number in the clamped bytes. -/
theorem decode_clamp {az : List UInt8} (h : az.length = 64) :
    decode ((clamp az).take 32) = 2 ^ 254 + decode (az.take 32) % 2 ^ 254 / 8 * 8 := by
  obtain ⟨b, l, rfl⟩ := List.exists_cons_of_length_pos (l := az) (by omega)
  rw [List.length_cons] at h
  obtain ⟨mid, e, rest, rfl, hmid⟩ : ∃ mid e rest, l = mid ++ e :: rest ∧ mid.length = 30 := by
    obtain ⟨e, rest, hdrop⟩ := List.exists_cons_of_length_pos (l := l.drop 30) (by
      rw [List.length_drop]
      omega)
    refine ⟨l.take 30, e, rest, ?_, ?_⟩
    · rw [← hdrop, List.take_append_drop]
    · rw [List.length_take]
      omega
  have hclamp : clamp (b :: (mid ++ e :: rest)) =
      (b &&& 248) :: (mid ++ ((e &&& 127) ||| 64) :: rest) := by
    have hlen : 31 = ((b &&& 248) :: mid).length := by rw [List.length_cons, hmid]
    rw [clamp, List.modify_zero_cons, hlen, ← List.cons_append, modify_append_cons,
      modify_append_cons, List.cons_append]
  have htake : ∀ c f : UInt8, (c :: (mid ++ f :: rest)).take 32 = c :: (mid ++ [f]) := by
    intro c f
    simp [List.take_append, hmid]
  have hdecode : ∀ c f : UInt8, decode (c :: (mid ++ [f])) =
      c.toNat + 256 * (decode mid + 256 ^ 30 * f.toNat) := by
    intro c f
    rw [decode, List.map_cons, List.map_append, List.map_singleton, Nat.ofDigits_cons,
      Nat.ofDigits_append, Nat.ofDigits_singleton, List.length_map, hmid, decode]
  have hb := b.toNat_lt
  have he := e.toNat_lt
  have hlt : decode mid < 256 ^ 30 := by
    rw [← hmid, ← List.length_map UInt8.toNat]
    refine Nat.ofDigits_lt_base_pow_length (by decide) fun x hx => ?_
    obtain ⟨c, -, rfl⟩ := List.mem_map.1 hx
    exact c.toNat_lt
  rw [hclamp, htake, htake, hdecode, hdecode, and_248, and_127_or_64]
  omega

/-! ## Writes into the three parts of a buffer -/

section Parts

variable {α : Type*} {x y w z t : List α} {n : Nat}

theorem patch_first (h : x.length = z.length) : patch (x ++ t) 0 z = z ++ t :=
  patch_append (p := []) rfl h

theorem patch_third (hx : x.length = 32) (hy : y.length = 32) (h : w.length = z.length) :
    patch (x ++ (y ++ (w ++ t))) 64 z = x ++ (y ++ (z ++ t)) := by
  rw [← List.append_assoc, patch_append (by rw [List.length_append, hx, hy]) h, List.append_assoc]

theorem exists_parts {l : List α} (h : n + 64 ≤ l.length) :
    ∃ x y w : List α, l = x ++ (y ++ (w ++ l.drop (n + 64))) ∧ x.length = 32 ∧ y.length = 32 ∧
      w.length = n := by
  refine ⟨l.take 32, (l.drop 32).take 32, (l.drop 64).take n, ?_, ?_, ?_, ?_⟩
  · rw [Nat.add_comm n 64, ← List.drop_drop, List.take_append_drop, show 64 = 32 + 32 from rfl,
      ← List.drop_drop, List.take_append_drop, List.take_append_drop]
  · rw [List.length_take]
    omega
  · rw [List.length_take, List.length_drop]
    omega
  · rw [List.length_take, List.length_drop]
    omega

end Parts

/-! ## Keys -/

/-- The scalar that both functions make from a seed. -/
def keyScalar (seed : List UInt8) : Sc25519 :=
  Sc25519.from32bytes ((clamp (digest seed)).take 32)

theorem keyScalar_spec (seed : List UInt8) :
    Sc25519.Reduced (keyScalar seed) ∧
      Sc25519.value (keyScalar seed) = secretScalar seed % Sc25519.order := by
  have hlen : ((clamp (digest seed)).take 32).length = 32 := by
    rw [List.length_take, length_clamp, length_digest]
    rfl
  obtain ⟨hreduced, hvalue⟩ := Sc25519.from32bytes_spec hlen
  rw [← decode, decode_clamp (length_digest seed)] at hvalue
  exact ⟨hreduced, hvalue⟩

theorem keyScalar_nsmul (seed : List UInt8) :
    Sc25519.value (keyScalar seed) • basePoint = secretScalar seed • basePoint := by
  rw [(keyScalar_spec seed).2, mod_order_nsmul]

/-- The point of a key. -/
theorem denotes_key (seed : List UInt8) :
    Denotes (scalarmultBase (keyScalar seed)) (secretScalar seed • basePoint) := by
  have hreduced := (keyScalar_spec seed).1
  rw [← keyScalar_nsmul]
  exact scalarmultBase_spec hreduced.bytes hreduced.lt_two_pow

theorem cryptoSignKeypair_eq {random pk sk : List UInt8} (az : HashLocal)
    (hrandom : random.length = 32) (hpk : 32 ≤ pk.length) (hsk : 64 ≤ sk.length) :
    cryptoSignKeypair random az pk sk =
      (0, pack (scalarmultBase (keyScalar random)) ++ pk.drop 32,
        random ++ (pack (scalarmultBase (keyScalar random)) ++ sk.drop 64)) := by
  have hhash : az.hash random = digest random := az.hash_eq (by omega)
  obtain ⟨x, y, w, hparts, hx, hy, hw⟩ := exists_parts (n := 0) (l := sk) (by omega)
  rw [List.length_eq_zero_iff.1 hw, List.nil_append, Nat.zero_add] at hparts
  have hpk' : pk = pk.take 32 ++ pk.drop 32 := (List.take_append_drop 32 pk).symm
  have hlen : (pk.take 32).length = 32 := by
    rw [List.length_take]
    omega
  generalize pk.take 32 = p at hpk' hlen
  generalize pk.drop 32 = q at hpk' ⊢
  generalize sk.drop 64 = t at hparts ⊢
  subst hparts hpk'
  have hpack := length_pack (scalarmultBase (keyScalar random))
  rw [cryptoSignKeypair]
  simp only [patch_first (hx.trans hrandom.symm), List.take_left' hrandom, hhash]
  change (0, patch (p ++ q) 0 (pack (scalarmultBase (keyScalar random))),
    patch (random ++ (y ++ t)) 32 ((patch (p ++ q) 0
      (pack (scalarmultBase (keyScalar random)))).take 32)) = _
  rw [patch_first (hlen.trans hpack.symm), List.take_left' hpack,
    patch_append hrandom (hy.trans hpack.symm)]

/-! ## Signatures -/

/-- The scalar of the point `R`. -/
def nonceOf (seed m : List UInt8) : Sc25519 :=
  Sc25519.from64bytes (digest ((digest seed).drop 32 ++ m))

/-- The bytes of the point `R`. -/
def commitment (seed m : List UInt8) : List UInt8 := pack (scalarmultBase (nonceOf seed m))

/-- The scalar `S`. -/
def response (seed pk m : List UInt8) : Sc25519 :=
  Sc25519.add (Sc25519.mul (Sc25519.from64bytes (digest (commitment seed m ++ (pk ++ m))))
    (keyScalar seed)) (nonceOf seed m)

theorem length_commitment (seed m : List UInt8) : (commitment seed m).length = 32 := length_pack _

theorem length_to32bytes (x : Sc25519) : (Sc25519.to32bytes x).length = 32 := by
  rw [Sc25519.to32bytes, List.length_map, Sc25519.length_v]

/-- What the second call hashes, in the buffer. -/
theorem nonce_input {x z m t : List UInt8} (hx : x.length = 32) (hz : z.length = 32) :
    ((x ++ (z ++ (m ++ t))).drop 32).take (m.length + 32) = z ++ m := by
  rw [List.drop_left' hx, ← List.append_assoc, List.take_left']
  rw [List.length_append, hz, Nat.add_comm]

/-- What the third call hashes, in the buffer. -/
theorem hram_input {r k m t : List UInt8} (hr : r.length = 32) (hk : k.length = 32) :
    (r ++ (k ++ (m ++ t))).take (m.length + 64) = r ++ (k ++ m) := by
  rw [← List.append_assoc k, ← List.append_assoc, List.take_left']
  rw [List.length_append, List.length_append, hr, hk]
  omega

theorem cryptoSign_eq {sm m sk : List UInt8} (az nonce hram : HashLocal) (hsk : sk.length = 64)
    (hsm : m.length + 64 ≤ sm.length) (hlen : m.length + 64 < 2 ^ 61) :
    cryptoSign az nonce hram sm m sk = (0, UInt64.ofNat (m.length + 64),
      commitment (sk.take 32) m ++ (Sc25519.to32bytes (response (sk.take 32) (sk.drop 32) m) ++
        (m ++ sm.drop (m.length + 64)))) := by
  generalize hseed : sk.take 32 = seed
  generalize hpub : sk.drop 32 = pk
  have hseedlen : seed.length = 32 := by
    rw [← hseed, List.length_take]
    omega
  have hpklen : pk.length = 32 := by
    rw [← hpub, List.length_drop]
    omega
  obtain ⟨x, y, w, hparts, hx, hy, hw⟩ := exists_parts hsm
  generalize sm.drop (m.length + 64) = t at hparts ⊢
  subst hparts
  have hzlen : ((digest seed).drop 32).length = 32 := by
    rw [List.length_drop, length_digest]
  have hztake : ((digest seed).drop 32).take 32 = (digest seed).drop 32 :=
    List.take_of_length_le hzlen.le
  have hpktake : pk.take 32 = pk := List.take_of_length_le hpklen.le
  have hcommit := length_commitment seed m
  rw [cryptoSign]
  simp only [hseed, hpub, az.hash_eq (m := seed) (by omega), drop_clamp, hztake, hpktake,
    patch_third hx hy hw, patch_append hx (hy.trans hzlen.symm), nonce_input hx hzlen]
  rw [nonce.hash_eq (by rw [List.length_append, hzlen]; omega)]
  change (0, UInt64.ofNat m.length + 64, patch (patch (patch _ 0 (commitment seed m)) 32 pk) 32
    (Sc25519.to32bytes (Sc25519.add (Sc25519.mul (Sc25519.from64bytes (hram.hash
      ((patch (patch _ 0 (commitment seed m)) 32 pk).take (m.length + 64)))) (keyScalar seed))
      (nonceOf seed m)))) = _
  rw [patch_first (hx.trans hcommit.symm), patch_append hcommit (hzlen.trans hpklen.symm),
    hram_input hcommit hpklen,
    hram.hash_eq (by rw [List.length_append, List.length_append, hcommit, hpklen]; omega)]
  change (0, UInt64.ofNat m.length + 64, patch _ 32 (Sc25519.to32bytes (response seed pk m))) = _
  rw [patch_append hcommit (hpklen.trans (length_to32bytes _).symm), UInt64.ofNat_add]
  rfl

theorem nonceOf_spec (seed m : List UInt8) :
    Sc25519.Reduced (nonceOf seed m) ∧
      Sc25519.value (nonceOf seed m) = nonceScalar seed m % Sc25519.order :=
  Sc25519.from64bytes_spec (length_digest _)

theorem response_spec (seed pk m : List UInt8) :
    Sc25519.Reduced (response seed pk m) ∧
      Sc25519.value (response seed pk m) =
        (nonceScalar seed m + challenge (commitment seed m) pk m * secretScalar seed) %
          Sc25519.order := by
  obtain ⟨hnonce, hnonce_value⟩ := nonceOf_spec seed m
  obtain ⟨hkey, hkey_value⟩ := keyScalar_spec seed
  obtain ⟨hhash, hhash_value⟩ :=
    Sc25519.from64bytes_spec (length_digest (commitment seed m ++ (pk ++ m)))
  obtain ⟨hmul, hmul_value⟩ := Sc25519.mul_spec hhash.bytes hkey.bytes
  obtain ⟨hadd, hadd_value⟩ := Sc25519.add_spec hmul hnonce
  refine ⟨hadd, ?_⟩
  rw [response, hadd_value, hmul_value, hhash_value, hkey_value, hnonce_value, ← Nat.mul_mod,
    ← Nat.add_mod, Nat.add_comm]
  rfl

/-- **The equation of a signature.** -/
theorem response_nsmul (seed pk m : List UInt8) :
    Sc25519.value (response seed pk m) • basePoint =
      nonceScalar seed m • basePoint +
        challenge (commitment seed m) pk m • (secretScalar seed • basePoint) := by
  rw [(response_spec seed pk m).2, mod_order_nsmul, add_nsmul, mul_nsmul']

theorem denotes_commitment (seed m : List UInt8) :
    Denotes (scalarmultBase (nonceOf seed m)) (nonceScalar seed m • basePoint) := by
  obtain ⟨hreduced, hvalue⟩ := nonceOf_spec seed m
  rw [← mod_order_nsmul, ← hvalue]
  exact scalarmultBase_spec hreduced.bytes hreduced.lt_two_pow

theorem to32bytes_eq {x : Sc25519} (h : Sc25519.Bytes x.v) :
    Sc25519.to32bytes x = Fe25519.encode (Sc25519.value x) := by
  obtain ⟨hlen, hvalue⟩ := Sc25519.to32bytes_spec h
  rw [← hvalue, Fe25519.encode_eq hlen]

/-! ## Results -/

/-- **Keys.**  From any thirty-two random bytes `crypto_sign_keypair` leaves the bytes of the point
`[a]B` as the public key and in the second half of the secret key, and the random bytes in the first
half.  The factor `a` is a multiple of eight between `2 ^ 254` and `2 ^ 255`. -/
theorem keypair_public {random pk sk : List UInt8} (az : HashLocal) (hrandom : random.length = 32)
    (hpk : 32 ≤ pk.length) (hsk : 64 ≤ sk.length) :
    ∃ A : Ge25519, Denotes A (secretScalar random • basePoint) ∧
      cryptoSignKeypair random az pk sk =
        (0, pack A ++ pk.drop 32, random ++ (pack A ++ sk.drop 64)) ∧
      8 ∣ secretScalar random ∧ 2 ^ 254 ≤ secretScalar random ∧
      secretScalar random < 2 ^ 255 := by
  refine ⟨_, denotes_key random, cryptoSignKeypair_eq az hrandom hpk hsk, ?_, ?_, ?_⟩
  · rw [secretScalar]
    omega
  · rw [secretScalar]
    omega
  · rw [secretScalar]
    omega

theorem keypair_public_zeros :
    let az : HashLocal := ⟨⟨7, initial, 9, List.replicate 128 1, List.length_replicate⟩,
      List.replicate 64 0, List.length_replicate⟩
    let random := List.replicate 32 (0 : UInt8)
    ∃ A : Ge25519, Denotes A (secretScalar random • basePoint) ∧
      cryptoSignKeypair random az (List.replicate 32 1) (List.replicate 64 2) =
        (0, pack A ++ (List.replicate 32 1).drop 32,
          random ++ (pack A ++ (List.replicate 64 2).drop 64)) ∧
      8 ∣ secretScalar random ∧ 2 ^ 254 ≤ secretScalar random ∧
      secretScalar random < 2 ^ 255 :=
  keypair_public _ List.length_replicate (by decide) (by decide)

/-- **Signatures.**  For every secret key, `crypto_sign` leaves a signature in front of the message and
touches nothing behind it: the bytes of a point `R` and the scalar `S` below the order of the base
point with `[S]B = R + [k]A`, where `A` is the point of the key and `k` the hash of the bytes of `R`,
the second half of the secret key and the message.  No other scalar below the order has this
property. -/
theorem sign_verifies {sm m sk : List UInt8} (az nonce hram : HashLocal) (hsk : sk.length = 64)
    (hsm : m.length + 64 ≤ sm.length) (hlen : m.length + 64 < 2 ^ 61) :
    ∃ (R : Ge25519) (P : curve.Point) (S : Nat), Denotes R P ∧ S < Sc25519.order ∧
      cryptoSign az nonce hram sm m sk = (0, UInt64.ofNat (m.length + 64),
        pack R ++ (Fe25519.encode S ++ (m ++ sm.drop (m.length + 64)))) ∧
      ∀ n < Sc25519.order, n • basePoint =
        P + challenge (pack R) (sk.drop 32) m • (secretScalar (sk.take 32) • basePoint) ↔
          n = S := by
  have hreduced := (response_spec (sk.take 32) (sk.drop 32) m).1
  refine ⟨_, _, _, denotes_commitment (sk.take 32) m, hreduced.lt, ?_, fun n hn => ?_⟩
  · rw [cryptoSign_eq az nonce hram hsk hsm hlen, to32bytes_eq hreduced.bytes]
    rfl
  · have hequation := response_nsmul (sk.take 32) (sk.drop 32) m
    rw [commitment] at hequation
    rw [← hequation, nsmul_basePoint_inj, Nat.mod_eq_of_lt hn, Nat.mod_eq_of_lt hreduced.lt]

theorem sign_verifies_zeros :
    let l : HashLocal := ⟨⟨7, initial, 9, List.replicate 128 1, List.length_replicate⟩,
      List.replicate 64 0, List.length_replicate⟩
    let sk := List.replicate 64 (0 : UInt8)
    ∃ (R : Ge25519) (P : curve.Point) (S : Nat), Denotes R P ∧ S < Sc25519.order ∧
      cryptoSign l l l (List.replicate 66 3) [1] sk = (0, UInt64.ofNat ([(1 : UInt8)].length + 64),
        pack R ++ (Fe25519.encode S ++ ([1] ++ (List.replicate 66 3).drop (1 + 64)))) ∧
      ∀ n < Sc25519.order, n • basePoint =
        P + challenge (pack R) (sk.drop 32) [1] • (secretScalar (sk.take 32) • basePoint) ↔
          n = S :=
  sign_verifies _ _ _ List.length_replicate (by decide) (by decide)

end Zedboard
