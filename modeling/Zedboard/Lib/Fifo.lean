import Mathlib.Data.List.Basic

/-!
# A lossy queue

A queue of bounded capacity between a writer and a reader.  An entry that is written while there is
no room is lost.  The queue keeps a record of what the reader has got and of what has been lost.

`Fifo.Carries c xs` says that nothing has been lost and that `xs` has been written so far: the
reader has a part of it, and the rest is in the queue.  A write with room adds to `xs`, and nothing
that the reader does changes it.
-/

set_option autoImplicit false

namespace Zedboard

/-- A queue, what has been delivered from it, and what has been lost. -/
structure Fifo (α : Type*) where
  queue : List α
  delivered : List α
  lost : List α
  deriving DecidableEq, Repr

namespace Fifo

variable {α : Type*} {c : Nat} {xs : List α} {f : Fifo α}

/-- The queue before anything has been written. -/
def empty : Fifo α := ⟨[], [], []⟩

/-- Write an entry into a queue of capacity `c`. -/
def push (c : Nat) (x : α) (f : Fifo α) : Fifo α :=
  if f.queue.length < c then { f with queue := f.queue ++ [x] }
  else { f with lost := f.lost ++ [x] }

/-- The first `n` entries leave the queue. -/
def pop (n : Nat) (f : Fifo α) : Fifo α :=
  { f with queue := f.queue.drop n, delivered := f.delivered ++ f.queue.take n }

/-- All entries leave the queue. -/
def drain (f : Fifo α) : Fifo α := { f with queue := [], delivered := f.delivered ++ f.queue }

/-- It does not matter how the queue has been emptied. -/
@[simp] theorem drain_pop (n : Nat) (f : Fifo α) : (f.pop n).drain = f.drain := by
  simp only [pop, drain, List.append_assoc, List.take_append_drop]

/-- Nothing has been lost, and `xs` has been written. -/
structure Carries (c : Nat) (xs : List α) (f : Fifo α) : Prop where
  written : f.delivered ++ f.queue = xs
  lost : f.lost = []
  fits : f.queue.length ≤ c

namespace Carries

theorem start (c : Nat) : Carries c [] (empty : Fifo α) := ⟨rfl, rfl, Nat.zero_le c⟩

/-- **A write with room** adds its entry. -/
theorem push (h : Carries c xs f) (hroom : f.queue.length < c) (x : α) :
    Carries c (xs ++ [x]) (f.push c x) := by
  rw [Fifo.push, if_pos hroom]
  refine ⟨?_, h.lost, ?_⟩
  · rw [← List.append_assoc, h.written]
  · rw [List.length_append, List.length_singleton]
    exact hroom

/-- **Emptying the queue** delivers all that has been written. -/
theorem drain (h : Carries c xs f) :
    Carries c xs f.drain ∧ f.drain.queue = [] ∧ f.drain.delivered = xs :=
  ⟨⟨by rw [Fifo.drain, List.append_nil, h.written], h.lost, Nat.zero_le c⟩, rfl, h.written⟩

/-- There is room unless the queue is full. -/
theorem room_iff (h : Carries c xs f) : f.queue.length < c ↔ c - f.queue.length ≠ 0 := by
  have := h.fits
  omega

end Carries
end Fifo
end Zedboard
