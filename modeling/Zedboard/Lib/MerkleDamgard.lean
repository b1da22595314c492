import Mathlib.Algebra.Order.Group.Nat
import Mathlib.Data.List.Basic

/-!
# Iterated hashing

A compression function takes in a message block by block, from the state that the blocks before have
led to.  `chain` is the state after the full blocks of a message and `pending` is what is left over.

A message that arrives in pieces needs no more than these two, wherever it is cut (`chain_append`,
`pending_append`).
-/

set_option autoImplicit false

namespace Zedboard

variable {α σ : Type*}

/-- The state after the full blocks of `n` of the message `l`, from the state `s`. -/
def chain (f : σ → List α → σ) (n : Nat) (s : σ) (l : List α) : σ :=
  if 0 < n ∧ n ≤ l.length then chain f n (f s (l.take n)) (l.drop n) else s
termination_by l.length
decreasing_by
  rw [List.length_drop]
  omega

/-- What a message has behind its last full block. -/
def pending (n : Nat) (l : List α) : List α := l.drop (n * (l.length / n))

variable {f : σ → List α → σ} {n : Nat} {s : σ} {l b r : List α}

theorem chain_of_lt (h : l.length < n) : chain f n s l = s := by
  rw [chain, if_neg (by omega)]

theorem chain_block (hn : 0 < n) (hb : b.length = n) :
    chain f n s (b ++ l) = chain f n (f s b) l := by
  have hle : 0 < n ∧ n ≤ (b ++ l).length := by
    rw [List.length_append]
    omega
  rw [chain, if_pos hle, List.take_left' hb, List.drop_left' hb]

/-- Full blocks are taken in before what comes behind them. -/
theorem chain_full (hn : 0 < n) : ∀ (k : Nat) (s : σ) (l : List α), l.length = n * k →
    chain f n s (l ++ r) = chain f n (chain f n s l) r
  | 0, s, l, hl => by
    have hnil : l = [] := List.length_eq_zero_iff.1 (by simpa using hl)
    rw [hnil, List.nil_append, chain_of_lt (l := []) (by simpa using hn)]
  | k + 1, s, l, hl => by
    rw [Nat.mul_succ] at hl
    have hb : (l.take n).length = n := by
      rw [List.length_take]
      omega
    have hrest : (l.drop n).length = n * k := by
      rw [List.length_drop]
      omega
    rw [← List.take_append_drop n l, List.append_assoc, chain_block hn hb, chain_block hn hb,
      chain_full hn k _ _ hrest]

/-! ## What is left over -/

theorem pending_of_lt (h : l.length < n) : pending n l = l := by
  rw [pending, Nat.div_eq_of_lt h, Nat.mul_zero, List.drop_zero]

@[simp] theorem length_pending : (pending n l).length = l.length % n := by
  rw [pending, List.length_drop, Nat.mod_eq_sub]

/-- A message is its full blocks and what is left over. -/
theorem take_append_pending (n : Nat) (l : List α) :
    l.take (n * (l.length / n)) ++ pending n l = l := List.take_append_drop _ _

theorem length_full (n : Nat) (l : List α) :
    (l.take (n * (l.length / n))).length = n * (l.length / n) := by
  rw [List.length_take]
  exact Nat.min_eq_left (Nat.mul_div_le _ _)

/-- Full blocks in front are not left over. -/
theorem pending_full {k : Nat} (hn : 0 < n) (hl : l.length = n * k) :
    pending n (l ++ r) = pending n r := by
  have hdrop : n * ((l ++ r).length / n) = l.length + n * (r.length / n) := by
    rw [List.length_append, hl, Nat.mul_add_div hn, Nat.mul_add]
  rw [pending, hdrop, List.drop_append, List.drop_eq_nil_of_le (Nat.le_add_right _ _),
    Nat.add_sub_cancel_left, List.nil_append, pending]

/-! ## Pieces -/

/-- The state of what has come in so far does for the full blocks of it. -/
theorem chain_append (hn : 0 < n) (s : σ) (l r : List α) :
    chain f n s (l ++ r) = chain f n (chain f n s l) (pending n l ++ r) := by
  have hfull := length_full n l
  have hl : chain f n s l = chain f n s (l.take (n * (l.length / n))) := by
    conv_lhs => rw [← take_append_pending n l, chain_full hn _ s _ hfull]
    exact chain_of_lt (by rw [length_pending]; exact Nat.mod_lt _ hn)
  conv_lhs => rw [← take_append_pending n l, List.append_assoc, chain_full hn _ s _ hfull, ← hl]

theorem pending_append (hn : 0 < n) (l r : List α) :
    pending n (l ++ r) = pending n (pending n l ++ r) := by
  conv_lhs => rw [← take_append_pending n l, List.append_assoc, pending_full hn (length_full n l)]

/-- The number of full blocks adds up. -/
theorem blocks_append (hn : 0 < n) (l r : List α) :
    (l ++ r).length / n = l.length / n + (pending n l ++ r).length / n := by
  rw [List.length_append, List.length_append, length_pending]
  conv_lhs => rw [← Nat.div_add_mod l.length n, Nat.add_assoc, Nat.mul_add_div hn]

end Zedboard
