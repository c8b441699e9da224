import MicroOsPlus.Rtos.StableQueue
import MicroOsPlus.Run

/-!
# The appending lists keep the order of linking

`top_threads_list`, `thread_children_list` and `terminated_threads_list` order nothing: their
`link` puts the node at the tail. What they keep is the order in which their nodes were linked,
which for the terminated list is the order in which its threads are to be reclaimed.

## The model

Such a list is the stable queue of `LinkOrder.fifo`, where every member stays in front of a node
being linked, so that `Before` is the order of the stamps alone. A run around one such list
interleaves its `link`s and `unlink ()`s of members with steps of the rest of the system that
keep its pointers (`AppendStep`).

## What is proved

* `linkSpec_fifo` — for `LinkOrder.fifo`, the place of `linkSpec` is the tail.
* `AppendStep.queueAt` — every step, and so every run, keeps the list holding its queue.
* `appendLists_fifo` — from an empty list or a zero header, in every state a run reaches, the
  members are the nodes of the queue, head to tail in the order they were last linked, and each
  `link` appends.
-/

namespace MicroOsPlus.Rtos

open Relation

/-- The order of an appending list: every member stays in front of a node being linked. -/
def LinkOrder.fifo : LinkOrder where
  stay _ _ := true
  total _ _ := Or.inl rfl
  trans _ _ := rfl

@[simp] theorem LinkOrder.fifo_stay (x k : ℕ) : LinkOrder.fifo.stay x k = true := rfl

theorem before_fifo_iff {key stamp : Ptr → ℕ} {a b : Ptr} :
    Before LinkOrder.fifo key stamp a b ↔ stamp a < stamp b := by
  simp [Before]

/-- For the appending order, `linkSpec` puts the node at the tail. -/
theorem linkSpec_fifo (key : Ptr → ℕ) (n : Ptr) (xs : List Ptr) :
    linkSpec (fun x => LinkOrder.fifo.stay (key x) (key n)) n xs = xs ++ [n] := by
  rw [linkSpec, linkSplit, if_pos (by cases xs.getLast? <;> rfl)]

/-- The appending lists have no key. -/
def noKey : Ptr → ℕ := fun _ => 0

/-- What can happen to an appending list of class `k` at `hd`, with the queue it holds. -/
inductive AppendStep (k : ListKind) (hd : Ptr) : State × Queue → State × Queue → Prop
  /-- The class's `link (n)`. -/
  | link {s s' : State} {q : Queue} {thr : Ptr → Ptr} {fuel : ℕ} {n : Ptr} :
      k.link thr fuel hd n s = some s' → AppendStep k hd (s, q) (s', q.push n)
  /-- `unlink ()` of a member. -/
  | unlink {s s' : State} {q : Queue} {x : Ptr} :
      x ∈ q.items → unlink x s = some s' → AppendStep k hd (s, q) (s', q.erase x)
  /-- A step of the rest of the system, which keeps the list's pointers. -/
  | env {s s' : State} {q : Queue} :
      LinksAgreeOn (hd :: q.items) s s' → AppendStep k hd (s, q) (s', q)

variable {k : ListKind} {hd : Ptr} {s s' : State} {q q' : Queue} {xs : List Ptr}

theorem AppendStep.queueAt (hk : k.appends = true) (hst : AppendStep k hd (s, q) (s', q'))
    (h : QueueAt LinkOrder.fifo noKey s hd q xs) :
    ∃ xs', QueueAt LinkOrder.fifo noKey s' hd q' xs' := by
  cases hst with
  | link hs =>
    exact ⟨_, h.link (by rw [linkSpec_fifo]; exact (k.link_append hk h.list hs).1) fun _ _ => rfl⟩
  | unlink hx hs => exact ⟨_, h.unlink hx hs fun _ _ => rfl⟩
  | env hs =>
    exact ⟨xs, h.env (hs.mono fun p hp => List.cons_subset_cons _ h.perm.subset hp) fun _ _ => rfl⟩

/-- **The appending lists are queues in the order of linking.** From an empty list or a zero
header, in every state a run of `link`s, `unlink ()`s of members and outside steps reaches, the
members are the nodes linked and not removed, head to tail in the order they were last linked;
and every `link` that returns appends its node. -/
theorem appendLists_fifo (k : ListKind) (hk : k.appends = true) (hd : Ptr) :
    (∀ s₀ s q, StaticListAt s₀ hd [] →
      ReflTransGen (AppendStep k hd) (s₀, Queue.empty) (s, q) →
      ∃ xs, StaticListAt s hd xs ∧ xs.Perm q.items ∧
        xs.Pairwise fun a b => q.stamp a < q.stamp b) ∧
    ∀ (thr : Ptr → Ptr) (fuel : ℕ) (n : Ptr) s s' xs, StaticListAt s hd xs →
      k.link thr fuel hd n s = some s' → ListAt s' hd (xs ++ [n]) := by
  refine ⟨fun s₀ s q h₀ hrun => ?_, fun _ _ _ _ _ _ h hs => (k.link_append hk h hs).1⟩
  obtain ⟨xs, h⟩ := run_invariant (fun c => ∃ xs, QueueAt LinkOrder.fifo noKey c.1 hd c.2 xs)
    (fun hst ⟨_, hxs⟩ => AppendStep.queueAt hk hst hxs) hrun ⟨[], QueueAt.init h₀ _ _⟩
  exact ⟨xs, h.list, h.perm, h.sorted.imp before_fifo_iff.1⟩

/-- The terminated list, its header `0` still zero: threads `1` and `2` terminate, then `1` is
reclaimed. -/
theorem appendLists_fifo_terminated :
    ∃ s q, ReflTransGen (AppendStep .terminated 0) (ringState 9 [], Queue.empty) (s, q) ∧
      ∃ xs, StaticListAt s 0 xs ∧ xs.Perm q.items ∧
        xs.Pairwise fun a b => q.stamp a < q.stamp b := by
  have hrun := ((ReflTransGen.single (r := AppendStep .terminated 0)
    (.link (q := Queue.empty)
      (show ListKind.terminated.link id 0 0 1 (ringState 9 []) = some _ from rfl))).tail
    (.link (show ListKind.terminated.link id 0 0 2 _ = some _ from rfl))).tail
    (.unlink (by decide) (show unlink 1 _ = some _ from rfl))
  exact ⟨_, _, hrun, (appendLists_fifo .terminated rfl 0).1 _ _ _ (Or.inr ⟨by decide, rfl⟩) hrun⟩

end MicroOsPlus.Rtos
