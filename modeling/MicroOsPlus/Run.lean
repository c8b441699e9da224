import Mathlib.Logic.Relation

/-!
# Runs

Every system of this development is a step relation: the lists of the scheduler, one list with
the queue it holds, the memory and the blocks its clients hold. Each law of such a system holds
at the start and is kept by every step, so it holds in every state a run reaches.
`run_invariant` says so once; each system proves only its step lemma.
-/

namespace MicroOsPlus

open Relation

/-- What every step keeps holds in every state a run reaches. -/
theorem run_invariant {α : Type*} {r : α → α → Prop} (P : α → Prop)
    (hstep : ∀ {a b}, r a b → P a → P b) {a b : α} (hrun : ReflTransGen r a b) (ha : P a) :
    P b := by
  induction hrun with
  | refl => exact ha
  | tail _ hst ih => exact hstep hst ih

end MicroOsPlus
