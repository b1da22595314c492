import Zedboard.Ed25519.Sha512Standard

/-!
# The hash of a message that comes in pieces

`Holds` is what a context knows of the bytes that it has taken in: the state after the full blocks,
the number of their bits, and the bytes behind them.  `sha512Init` starts it, `sha512Update` keeps
it however the message is cut, and `sha512Final` turns it into the hash of the standard.
-/

set_option autoImplicit false

namespace Zedboard

open Sha512

namespace Sha512Context

/-- What has to do with the message in the context is its own, and not left over from before. -/
structure Holds (md : Sha512Context) (m : List UInt8) : Prop where
  state : md.state = chain Sha512.compress 128 initial m
  length : md.length = UInt64.ofNat (128 * 8 * (m.length / 128))
  curlen : md.curlen = m.length % 128
  held : md.held = pending 128 m

theorem Holds.curlen_lt {md : Sha512Context} {m : List UInt8} (h : md.Holds m) : md.curlen < 128 :=
  h.curlen ▸ Nat.mod_lt _ (by decide)

@[simp] theorem state_put (md : Sha512Context) (xs : List UInt8) :
    (md.put xs).state = md.state := by
  rw [put]

@[simp] theorem length_put (md : Sha512Context) (xs : List UInt8) :
    (md.put xs).length = md.length := by
  rw [put]

theorem curlen_put (md : Sha512Context) (xs : List UInt8) :
    (md.put xs).curlen = md.curlen + xs.length := by
  rw [put]

@[simp] theorem state_zeros (md : Sha512Context) (k : Nat) : (md.zeros k).state = md.state :=
  md.state_put _

@[simp] theorem length_zeros (md : Sha512Context) (k : Nat) : (md.zeros k).length = md.length :=
  md.length_put _

@[simp] theorem state_compress (md : Sha512Context) (data : List UInt8) :
    (md.compress data).state = sha512Compress md.state data := by
  rw [compress]

@[simp] theorem length_compress (md : Sha512Context) (data : List UInt8) :
    (md.compress data).length = md.length := by
  rw [compress]

@[simp] theorem state_empty (md : Sha512Context) : md.empty.state = md.state := by
  rw [empty]

@[simp] theorem length_empty (md : Sha512Context) : md.empty.length = md.length := by
  rw [empty]

@[simp] theorem held_block (md : Sha512Context) (data : List UInt8) :
    (md.block data).held = md.held := by
  simp only [held, block]

@[simp] theorem held_empty (md : Sha512Context) : md.empty.held = [] := by
  rw [held, curlen_empty, List.take_zero]

theorem length_held (md : Sha512Context) (h : md.curlen ≤ 128) : md.held.length = md.curlen := by
  rw [held, List.length_take, md.length_buf, Nat.min_eq_left h]

/-- Bytes that fit are held behind those that are there. -/
theorem held_put (md : Sha512Context) {xs : List UInt8} (h : md.curlen + xs.length ≤ 128) :
    (md.put xs).held = md.held ++ xs :=
  take_patch (by rw [md.length_buf]; exact h)

theorem held_eq_buf (md : Sha512Context) (h : md.curlen = 128) : md.held = md.buf := by
  rw [held, h, ← md.length_buf, List.take_length]

theorem curlen_zeros (md : Sha512Context) {k : Nat} (h : md.curlen ≤ k) :
    (md.zeros k).curlen = k := by
  rw [zeros, put, List.length_replicate]
  exact Nat.add_sub_cancel' h

theorem held_zeros (md : Sha512Context) {k : Nat} (h : md.curlen ≤ k) (hk : k ≤ 128) :
    (md.zeros k).held = md.held ++ List.replicate (k - md.curlen) 0 :=
  md.held_put (by rw [List.length_replicate]; omega)

end Sha512Context

open Sha512Context

/-! ## Taking in -/

/-- The context `md'` is `md` after the full blocks of `all`, and holds the rest of it. -/
structure Took (md : Sha512Context) (all : List UInt8) (md' : Sha512Context) : Prop where
  state : md'.state = chain Sha512.compress 128 md.state all
  length : md'.length = md.length + UInt64.ofNat (128 * 8 * (all.length / 128))
  curlen : md'.curlen = all.length % 128
  held : md'.held = pending 128 all

/-- One block more in front. -/
theorem Took.cons {md md' : Sha512Context} {data rest : List UInt8}
    (h : Took (md.block data) rest md') (hdata : data.length = 128) :
    Took md (data ++ rest) md' := by
  have hdiv : (data ++ rest).length / 128 = rest.length / 128 + 1 := by
    rw [List.length_append, hdata, Nat.add_comm, Nat.add_div_right _ (by decide)]
  have hbits : UInt64.ofNat (128 * 8 * (rest.length / 128 + 1)) =
      128 * 8 + UInt64.ofNat (128 * 8 * (rest.length / 128)) := by
    rw [Nat.mul_succ, Nat.add_comm, UInt64.ofNat_add]
    rfl
  constructor
  · rw [h.state, chain_block (by decide) hdata, Sha512Context.block,
      sha512Compress_eq _ (le_of_eq hdata.symm)]
  · rw [h.length, hdiv, hbits, ← UInt64.add_assoc, Sha512Context.block]
  · rw [h.curlen, List.length_append, hdata, Nat.add_mod_left]
  · rw [h.held, pending_full (k := 1) (by decide) hdata]

/-- Emptying the buffer and writing into it do not touch what a block does. -/
theorem Took.of_eq {md md₀ md' : Sha512Context} {all : List UInt8} (h : Took md₀ all md')
    (hstate : md₀.state = md.state) (hlength : md₀.length = md.length) : Took md all md' :=
  ⟨hstate ▸ h.state, hlength ▸ h.length, h.curlen, h.held⟩

/-- **The loop** takes in what the context holds and then the input. -/
theorem sha512UpdateLoop_took (md : Sha512Context) (h : md.curlen ≤ 128) (inp : List UInt8)
    (hlt : md.curlen < 128) : Took md (md.held ++ inp) (sha512UpdateLoop md h inp) := by
  have hheld := md.length_held h
  rw [sha512UpdateLoop]
  by_cases hinp : 0 < inp.length
  · rw [dif_pos hinp]
    by_cases hblock : md.curlen = 0 ∧ 128 ≤ inp.length
    · -- a block straight from the input
      have hnil : md.held = [] := List.length_eq_zero_iff.1 (by omega)
      have htake : (inp.take 128).length = 128 := by
        rw [List.length_take]
        omega
      have ih := sha512UpdateLoop_took (md.block (inp.take 128)) (by rwa [curlen_block])
        (inp.drop 128) (by rwa [curlen_block])
      rw [held_block, hnil, List.nil_append] at ih
      have hsplit : md.held ++ inp = inp.take 128 ++ inp.drop 128 := by
        rw [hnil, List.nil_append, List.take_append_drop]
      rw [if_pos hblock, hsplit]
      exact ih.cons htake
    · rw [if_neg hblock]
      extract_lets n md'
      have hn : n = min inp.length (128 - md.curlen) := rfl
      have hcurlen : md'.curlen = md.curlen + n := md.curlen_put_take (by omega)
      have hput : md'.held = md.held ++ inp.take n :=
        md.held_put (by rw [List.length_take]; omega)
      have hsplit : md.held ++ inp = md'.held ++ inp.drop n := by
        rw [hput, List.append_assoc, List.take_append_drop]
      have hstate : md'.state = md.state := by simp only [md', put]
      have hlength : md'.length = md.length := by simp only [md', put]
      rw [hsplit]
      by_cases hfull : md'.curlen = 128
      · -- the input fills the buffer
        have ih := sha512UpdateLoop_took (md'.block md'.buf).empty (by rw [curlen_empty]; decide)
          (inp.drop n) (by rw [curlen_empty]; decide)
        rw [held_empty, List.nil_append] at ih
        rw [dif_pos hfull, held_eq_buf _ hfull]
        exact ((ih.of_eq (by rw [empty]) (by rw [empty])).cons md'.length_buf).of_eq hstate hlength
      · -- the input is at its end
        have ih := sha512UpdateLoop_took md' (by omega) (inp.drop n) (by omega)
        rw [dif_neg hfull]
        exact ih.of_eq hstate hlength
  · have hnil : inp = [] := List.length_eq_zero_iff.1 (by omega)
    rw [dif_neg hinp, hnil, List.append_nil]
    exact ⟨(chain_of_lt (by omega)).symm, by rw [Nat.div_eq_of_lt (by omega)]; simp,
      by rw [Nat.mod_eq_of_lt (by omega), hheld], (pending_of_lt (by omega)).symm⟩
termination_by inp.length
decreasing_by
  all_goals
    rw [List.length_drop]
    omega

/-! ## Calls -/

/-- `sha512_init` starts with nothing, whatever there was. -/
theorem sha512Init_holds (md : Sha512Context) :
    ∃ md', sha512Init (some md) = (0, some md') ∧ md'.Holds [] :=
  ⟨_, rfl, (chain_of_lt (by decide)).symm, rfl, rfl, rfl⟩

/-- **`sha512_update` appends.** -/
theorem sha512Update_holds {md : Sha512Context} {m : List UInt8} (h : md.Holds m)
    (inp : List UInt8) :
    ∃ md', sha512Update (some md) (some inp) = (0, some md') ∧ md'.Holds (m ++ inp) := by
  have htook := sha512UpdateLoop_took md (Nat.le_of_lt h.curlen_lt) inp h.curlen_lt
  refine ⟨sha512UpdateLoop md (Nat.le_of_lt h.curlen_lt) inp, ?_, ?_, ?_, ?_, ?_⟩
  · rw [sha512Update, dif_pos (Nat.le_of_lt h.curlen_lt)]
  · rw [htook.state, h.held, h.state, ← chain_append (by decide)]
  · rw [htook.length, h.held, h.length, ← UInt64.ofNat_add, ← Nat.mul_add,
      ← blocks_append (by decide)]
  · rw [htook.curlen, h.held, List.length_append, List.length_append, length_pending,
      Nat.mod_add_mod]
  · rw [htook.held, h.held, ← pending_append (by decide)]

/-- `sha512_update` for one piece after the other, as long as it succeeds. -/
def sha512Updates : Option Sha512Context → List (List UInt8) → Nat × Option Sha512Context
  | md, [] => (0, md)
  | md, piece :: pieces =>
    match sha512Update md (some piece) with
    | (0, md) => sha512Updates md pieces
    | r => r

/-- A run of updates appends all pieces. -/
theorem sha512Updates_holds : ∀ {md : Sha512Context} {m : List UInt8}, md.Holds m →
    ∀ pieces : List (List UInt8), ∃ md',
      sha512Updates (some md) pieces = (0, some md') ∧ md'.Holds (m ++ pieces.flatten)
  | md, m, h, [] => ⟨md, rfl, by rwa [List.flatten_nil, List.append_nil]⟩
  | md, m, h, piece :: pieces => by
    obtain ⟨md₁, hmd₁, h₁⟩ := sha512Update_holds h piece
    obtain ⟨md₂, hmd₂, h₂⟩ := sha512Updates_holds h₁ pieces
    refine ⟨md₂, ?_, ?_⟩
    · rw [sha512Updates, hmd₁]
      exact hmd₂
    · rwa [List.flatten_cons, ← List.append_assoc]

/-! ## The end of the message -/

/-- The bytes that `sha512_final` puts behind a message of `len` bytes. -/
theorem padding_eq {len : Nat} (hlen : len < 2 ^ 61) :
    padding len = 0x80 :: (List.replicate ((239 - len % 128) % 128 + 8) 0 ++
      toBytes 8 (8 * len)) := by
  have hzero : 8 * len / 256 ^ 8 = 0 := Nat.div_eq_of_lt (by omega)
  rw [padding, toBytes_add 8 8, hzero, toBytes_zero, ← List.append_assoc, ← List.replicate_add]

theorem state_lastBlock (md : Sha512Context) (h : md.curlen ≤ 120) :
    md.lastBlock.state = sha512Compress md.state
      (md.held ++ (List.replicate (120 - md.curlen) 0 ++ toBytes 8 md.length.toNat)) := by
  have hfit : 120 + (toBytes 8 md.length.toNat).length = (md.zeros 120).buf.length := by
    rw [length_toBytes, Sha512Context.length_buf]
  have hheld : (md.zeros 120).buf.take 120 = (md.zeros 120).held := by
    rw [Sha512Context.held, curlen_zeros md h]
  have hbuf : (md.zeros 120).storeLength.buf =
      md.held ++ (List.replicate (120 - md.curlen) 0 ++ toBytes 8 md.length.toNat) := by
    simp only [storeLength]
    rw [length_zeros, store64h_eq, patch_eq (le_of_eq hfit), hfit, List.drop_length,
      List.append_nil, hheld, held_zeros md h (by decide), List.append_assoc]
  have hstate : (md.zeros 120).storeLength.state = md.state := by
    rw [storeLength]
    exact md.state_zeros 120
  rw [lastBlock, state_compress, hbuf, hstate]

/-- What is left over and the padding are taken in. -/
theorem state_finish {md : Sha512Context} {m : List UInt8} (h : md.Holds m)
    (hlen : m.length < 2 ^ 61) :
    md.finish.state = chain Sha512.compress 128 initial (m ++ padding m.length) := by
  have hlt := h.curlen_lt
  have hcur := h.curlen
  have hheld := md.length_held (Nat.le_of_lt hlt)
  have hbits : md.countHeld.length = UInt64.ofNat (8 * m.length) := by
    have hsplit : 8 * m.length = 128 * 8 * (m.length / 128) + m.length % 128 * 8 := by omega
    rw [countHeld, h.length, hcur, hsplit, UInt64.ofNat_add, UInt64.ofNat_mul (m.length % 128)]
    rfl
  have hnat : (UInt64.ofNat (8 * m.length)).toNat = 8 * m.length := by
    rw [UInt64.toNat_ofNat', Nat.mod_eq_of_lt (by omega)]
  have hcur₁ : (md.countHeld.put [0x80]).curlen = md.curlen + 1 := by
    rw [curlen_put, countHeld, List.length_singleton]
  have hheld₁ : (md.countHeld.put [0x80]).held = md.held ++ [0x80] := by
    rw [held_put _ (by rw [countHeld]; exact hlt), countHeld, Sha512Context.held,
      Sha512Context.held]
  have hstate₁ : (md.countHeld.put [0x80]).state = md.state := by
    rw [state_put, countHeld]
  rw [chain_append (by decide), ← h.held, ← h.state, padding_eq hlen, ← hcur, finish]
  by_cases hroom : 112 < md.curlen + 1
  · -- no room for the number of bits
    have hblock₁ : (md.held ++ 0x80 :: List.replicate (127 - md.curlen) 0).length = 128 := by
      simp only [List.length_append, List.length_cons, List.length_replicate]
      omega
    have hblock₂ : (List.replicate 120 0 ++ toBytes 8 (8 * m.length)).length = 128 := by
      simp only [List.length_append, List.length_replicate, length_toBytes]
    have hsplit : md.held ++ 0x80 :: (List.replicate ((239 - md.curlen) % 128 + 8) 0 ++
        toBytes 8 (8 * m.length)) = (md.held ++ 0x80 :: List.replicate (127 - md.curlen) 0) ++
          ((List.replicate 120 0 ++ toBytes 8 (8 * m.length)) ++ []) := by
      have hzeros : (239 - md.curlen) % 128 + 8 = 127 - md.curlen + 120 := by omega
      rw [hzeros, List.replicate_add, List.append_nil]
      simp only [List.append_assoc, List.cons_append]
    have hbuf : ((md.countHeld.put [0x80]).zeros 128).buf =
        md.held ++ 0x80 :: List.replicate (127 - md.curlen) 0 := by
      have hfull : ((md.countHeld.put [0x80]).zeros 128).curlen = 128 :=
        curlen_zeros _ (by omega)
      rw [← held_eq_buf _ hfull, held_zeros _ (by omega) le_rfl, hheld₁, hcur₁, List.append_assoc,
        List.singleton_append, Nat.add_comm, Nat.sub_add_eq]
    rw [if_pos (by rw [hcur₁]; exact hroom), state_lastBlock _ (by rw [curlen_empty]; decide),
      hsplit, chain_block (by decide) hblock₁, chain_block (by decide) hblock₂,
      chain_of_lt (by decide), held_empty, curlen_empty, List.nil_append, state_empty,
      length_empty, state_compress, length_compress, length_zeros, state_zeros, length_put, hbits,
      hnat, hbuf, hstate₁, ← sha512Compress_eq _ (le_of_eq hblock₁.symm),
      ← sha512Compress_eq _ (le_of_eq hblock₂.symm)]
  · -- the number of bits fits in
    have hblock : (md.held ++ 0x80 :: (List.replicate ((239 - md.curlen) % 128 + 8) 0 ++
        toBytes 8 (8 * m.length))).length = 128 := by
      simp only [List.length_append, List.length_cons, List.length_replicate, length_toBytes]
      omega
    have hone := chain_block (f := Sha512.compress) (s := md.state) (l := []) (by decide) hblock
    rw [List.append_nil, chain_of_lt (l := []) (by decide)] at hone
    have hzeros : 120 - (md.curlen + 1) = (239 - md.curlen) % 128 + 8 := by omega
    rw [if_neg (by rw [hcur₁]; exact hroom), state_lastBlock _ (by omega), hcur₁, hheld₁, hstate₁,
      length_put, hbits, hnat, hone, hzeros, ← sha512Compress_eq _ (le_of_eq hblock.symm),
      List.append_assoc, List.singleton_append]

/-- The digest is written over the first bytes of the output. -/
theorem copyOutput_eq (state : Vector UInt64 8) (out : List UInt8) :
    copyOutput state out = patch out 0 (state.toList.flatMap fun x => toBytes 8 x.toNat) := by
  have hwords : ∀ i, (store64h (state.toList.getD i 0)).length = 8 := fun i => by
    rw [store64h_eq, length_toBytes]
  have hlist : (List.range 8).map (state.toList.getD · 0) = state.toList := by
    refine List.ext_getElem (by simp) fun i h1 h2 => ?_
    rw [List.getElem_map, List.getElem_range, List.getD_eq_getElem?_getD,
      List.getElem?_eq_getElem h2, Option.getD_some]
  rw [copyOutput, foldl_patch hwords, ← List.flatMap_map, hlist]
  exact congrArg (patch out 0) (List.flatMap_congr fun x _ => store64h_eq x)

/-- **`sha512_final`** writes the hash of what has been taken in. -/
theorem sha512Final_holds {md : Sha512Context} {m : List UInt8} (h : md.Holds m)
    (hlen : m.length < 2 ^ 61) (out : List UInt8) :
    sha512Final (some md) (some out) = (0, some md.finish, some (patch out 0 (digest m))) := by
  have hcurlen : ¬128 ≤ md.curlen := Nat.not_le.2 h.curlen_lt
  rw [sha512Final, if_neg hcurlen]
  simp only [copyOutput_eq, state_finish h hlen, digest]

/-- **A message in pieces.**  However a message is cut, whatever the context on the stack contains,
initialising, taking in the pieces and finishing succeed and write the hash of the standard over the
first bytes of the output.  Messages are shorter than `2 ^ 64` bits, as `sha512_final` assumes. -/
theorem sha512_pieces (ctx : Sha512Context) (pieces : List (List UInt8)) (out : List UInt8)
    (hlen : pieces.flatten.length < 2 ^ 61) :
    ∃ md₀ md md', sha512Init (some ctx) = (0, some md₀) ∧
      sha512Updates (some md₀) pieces = (0, some md) ∧
      sha512Final (some md) (some out) = (0, some md', some (patch out 0 (digest pieces.flatten))) := by
  obtain ⟨md₀, hinit, h₀⟩ := sha512Init_holds ctx
  obtain ⟨md, hupdates, h⟩ := sha512Updates_holds h₀ pieces
  rw [List.nil_append] at h
  exact ⟨md₀, md, md.finish, hinit, hupdates, sha512Final_holds h hlen out⟩

theorem sha512_pieces_abc : ∃ md₀ md md', sha512Init (some ⟨7, initial, 9, List.replicate 128 1,
      List.length_replicate⟩) = (0, some md₀) ∧
    sha512Updates (some md₀) [[97], [], [98, 99]] = (0, some md) ∧
    sha512Final (some md) (some (List.replicate 64 0)) = (0, some md',
      some (patch (List.replicate 64 0) 0 (digest [[97], [], [98, 99]].flatten))) :=
  sha512_pieces _ _ _ (by decide)

/-- `crypto_hash_sha512` is the call with one piece. -/
theorem cryptoHashSha512_eq (ctx : Sha512Context) (m out : List UInt8) (hlen : m.length < 2 ^ 61) :
    cryptoHashSha512 ctx (some out) (some m) = (0, some (patch out 0 (digest m))) := by
  obtain ⟨md₀, hinit, h₀⟩ := sha512Init_holds ctx
  obtain ⟨md, hupdate, h⟩ := sha512Update_holds h₀ m
  rw [List.nil_append] at h
  rw [cryptoHashSha512, sha512, hinit]
  simp only [hupdate, sha512Final_holds h hlen out]

end Zedboard
