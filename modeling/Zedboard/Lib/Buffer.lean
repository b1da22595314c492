import Mathlib.Data.List.Basic

/-!
# Buffers of fixed size

A buffer is a list whose length never changes.  `patch` writes a run of values into it, as a copying
loop or a `memmove` does; what would fall behind the end is dropped.
-/

set_option autoImplicit false

namespace Zedboard

variable {α : Type*}

/-- The buffer `l` with the values `xs` from the place `o` on. -/
def patch (l : List α) (o : Nat) (xs : List α) : List α :=
  l.mapIdx fun i x => if o ≤ i then xs.getD (i - o) x else x

@[simp] theorem length_patch (l : List α) (o : Nat) (xs : List α) :
    (patch l o xs).length = l.length := by
  rw [patch, List.length_mapIdx]

theorem getElem?_patch (l : List α) (o : Nat) (xs : List α) (i : Nat) :
    (patch l o xs)[i]? = l[i]?.map fun x => if o ≤ i then xs[i - o]?.getD x else x := by
  simp only [patch, List.getElem?_mapIdx, List.getD_eq_getElem?_getD]

/-- A run that fits replaces what was there. -/
theorem patch_append {p q r : List α} {o : Nat} {xs : List α} (ho : p.length = o)
    (hxs : q.length = xs.length) : patch (p ++ (q ++ r)) o xs = p ++ (xs ++ r) := by
  subst ho
  refine List.ext_getElem? fun i => ?_
  rw [getElem?_patch]
  rcases Nat.lt_or_ge i p.length with hp | hp
  · simp [List.getElem?_append, hp, Nat.not_le.2 hp]
  · rcases Nat.lt_or_ge (i - p.length) xs.length with hx | hx
    · have hq : i - p.length < q.length := by omega
      simp [List.getElem?_append, hp, Nat.not_lt.2 hp, hx, hq]
    · simp [List.getElem?_append, hp, Nat.not_lt.2 hp, Nat.not_lt.2 hx, hxs]

theorem patch_eq {l : List α} {o : Nat} {xs : List α} (h : o + xs.length ≤ l.length) :
    patch l o xs = l.take o ++ (xs ++ l.drop (o + xs.length)) := by
  have hsplit : l = l.take o ++ ((l.drop o).take xs.length ++ l.drop (o + xs.length)) := by
    rw [← List.drop_drop, List.take_append_drop, List.take_append_drop]
  conv_lhs => rw [hsplit]
  refine patch_append ?_ ?_
  · rw [List.length_take]
    omega
  · rw [List.length_take, List.length_drop]
    omega

/-- What is in front of the end of the run. -/
theorem take_patch {l : List α} {o : Nat} {xs : List α} (h : o + xs.length ≤ l.length) :
    (patch l o xs).take (o + xs.length) = l.take o ++ xs := by
  have hlen : (l.take o ++ xs).length = o + xs.length := by
    rw [List.length_append, List.length_take]
    omega
  rw [patch_eq h, ← List.append_assoc, List.take_left' hlen]

theorem patch_nil (l : List α) (o : Nat) : patch l o [] = l := by
  refine List.ext_getElem? fun i => ?_
  rw [getElem?_patch]
  cases l[i]? <;> simp

/-- Two runs, one behind the other. -/
theorem patch_patch (l : List α) (o : Nat) (xs ys : List α) :
    patch (patch l o xs) (o + xs.length) ys = patch l o (xs ++ ys) := by
  refine List.ext_getElem? fun i => ?_
  rw [getElem?_patch, getElem?_patch, getElem?_patch, Option.map_map]
  refine congrArg (Option.map · _) (funext fun x => ?_)
  rw [Function.comp_apply]
  rcases Nat.lt_or_ge i o with hi | hi
  · rw [if_neg (by omega), if_neg (by omega), if_neg (by omega)]
  · rw [if_pos hi, if_pos hi]
    rcases Nat.lt_or_ge (i - o) xs.length with hx | hx
    · rw [if_neg (by omega), List.getElem?_append_left hx]
    · rw [if_pos (by omega), List.getElem?_append_right hx, List.getElem?_eq_none hx,
        Nat.sub_add_eq, Option.getD_none]

/-- A loop that writes one run of `k` values after the other. -/
theorem foldl_patch {k : Nat} {f : Nat → List α} (hf : ∀ i, (f i).length = k) (l : List α)
    (n : Nat) : (List.range n).foldl (fun l i => patch l (k * i) (f i)) l =
      patch l 0 ((List.range n).flatMap f) := by
  induction n with
  | zero => exact (patch_nil l 0).symm
  | succ n ih =>
    have hlen : ((List.range n).flatMap f).length = k * n := by
      simp [List.length_flatMap, hf, Nat.mul_comm]
    rw [List.range_succ, List.foldl_append, List.foldl_cons, List.foldl_nil, ih,
      List.flatMap_append, List.flatMap_singleton, ← patch_patch, hlen, Nat.zero_add]

end Zedboard
