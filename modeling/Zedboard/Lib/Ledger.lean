import Mathlib.Data.List.Perm.Basic
import Mathlib.Data.List.Count

/-!
# What is held after a log of events

Some events of a log acquire a resource and some release one.  `Custody.Moves C held log held'` says
that who holds `held` before the log holds `held'` after it: everything acquired has been released
once or is still held.  Such logs compose (`Moves.trans`), so a run is accounted for step by step.
-/

set_option autoImplicit false

namespace Zedboard

/-- Which events acquire a resource, and which release one. -/
structure Custody (ε ρ : Type*) where
  acquires : ε → Option ρ
  releases : ε → Option ρ

namespace Custody

variable {ε ρ : Type*} {C : Custody ε ρ} {held held' held'' : List ρ} {log log' : List ε}

/-- The log turns the holdings `held` into `held'`. -/
def Moves (C : Custody ε ρ) (held : List ρ) (log : List ε) (held' : List ρ) : Prop :=
  (held ++ log.filterMap C.acquires).Perm (log.filterMap C.releases ++ held')

instance [DecidableEq ρ] : Decidable (C.Moves held log held') :=
  inferInstanceAs (Decidable (List.Perm _ _))

theorem Moves.refl (held : List ρ) : C.Moves held [] held := by simp [Moves]

/-- One log after another. -/
theorem Moves.trans (h : C.Moves held log held') (h' : C.Moves held' log' held'') :
    C.Moves held (log ++ log') held'' := by
  have h₁ : (held ++ log.filterMap C.acquires ++ log'.filterMap C.acquires).Perm
      (log.filterMap C.releases ++ held' ++ log'.filterMap C.acquires) := List.Perm.append_right _ h
  have h₂ : (log.filterMap C.releases ++ (held' ++ log'.filterMap C.acquires)).Perm
      (log.filterMap C.releases ++ (log'.filterMap C.releases ++ held'')) :=
      List.Perm.append_left _ h'
  rw [List.append_assoc (log.filterMap C.releases)] at h₁
  rw [Moves, List.filterMap_append, List.filterMap_append, ← List.append_assoc held,
    List.append_assoc (log.filterMap C.releases)]
  exact h₁.trans h₂

/-- What a second log does with the holdings, seen from the beginning of the first one. -/
theorem Moves.append_iff (h : C.Moves held log held') :
    C.Moves held (log ++ log') held'' ↔ C.Moves held' log' held'' := by
  refine ⟨fun h' => ?_, h.trans⟩
  have h₁ : (held ++ log.filterMap C.acquires ++ log'.filterMap C.acquires).Perm
      (log.filterMap C.releases ++ (held' ++ log'.filterMap C.acquires)) := by
    rw [← List.append_assoc (log.filterMap C.releases)]
    exact List.Perm.append_right _ h
  rw [Moves, List.filterMap_append, List.filterMap_append, ← List.append_assoc held,
    List.append_assoc (log.filterMap C.releases)] at h'
  exact (List.perm_append_left_iff _).1 (h₁.symm.trans h')

end Custody
end Zedboard
