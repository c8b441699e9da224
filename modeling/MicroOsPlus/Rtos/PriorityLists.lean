import MicroOsPlus.Rtos.StableQueue
import MicroOsPlus.Run

/-!
# The ready list and the wait lists are stable priority queues

A run around one ordered list interleaves the list's own operations with steps of the rest of
the system. Beside the state, a run carries the abstract `Queue` the list should hold: `link`
pushes the node, `unlink_head`, `resume_one` and `unlink` of a member erase it, and a step of the
rest of the system leaves the queue alone. Such a step may do anything that keeps the list's
pointers and the keys of its members: "no linked thread's priority changes while its node is
linked".

## What is proved

* `ReadyStep.queueAt`, `WaitStep.queueAt` — from a list that holds its queue, every step keeps
  it held: head to tail, the members are the queue's nodes in order of priority, nonincreasing,
  equal priorities in the order they were linked; so does every run (`run_invariant`).
* `ReadyThreadsList.link_place`, `WaitingThreadsList.link_place` — each `link`, whichever of its
  three paths it takes, puts the node right after the last member of priority `>=` its own.
* `ReadyThreadsList.unlinkHead_nonempty`, `WaitingThreadsList.resumeOne_first` — on a list with
  a member, `unlink_head` returns and `resume_one` unlinks, and both remove the node the queue
  serves first.
-/

namespace MicroOsPlus.Rtos

open Relation

/-- The ready list's key: `prio_` of the node's thread. -/
def readyKey (thr : Ptr → Ptr) (s : State) (p : Ptr) : ℕ := s.prio (thr p)

/-- A wait list's key: `sched_prio ()` of the node's thread. -/
def waitKey (thr : Ptr → Ptr) (s : State) (p : Ptr) : ℕ := s.schedPrio (thr p)

/-- `xs'` is `xs` with `n` inserted right after the last member whose key stays in front of
`n`'s: all the members in front of `n` stay in front of its key, none of those behind does. -/
def InsertedAfterLast (o : LinkOrder) (key : Ptr → ℕ) (n : Ptr) (xs xs' : List Ptr) : Prop :=
  ∃ ys zs, xs = ys ++ zs ∧ xs' = ys ++ n :: zs ∧ (∀ y ∈ ys, o.stay (key y) (key n) = true) ∧
    ∀ z ∈ zs, o.stay (key z) (key n) = false

variable {thr : Ptr → Ptr} {hd : Ptr} {s s' : State} {q : Queue} {xs : List Ptr}

theorem QueueAt.insertedAfterLast {o : LinkOrder} {key : Ptr → ℕ} (h : QueueAt o key s hd q xs)
    (n : Ptr) : InsertedAfterLast o key n xs (linkSpec (fun x => o.stay (key x) (key n)) n xs) := by
  obtain ⟨hsplit, hA, hB⟩ := h.linkSpec_of_sorted n
  exact ⟨_, _, (List.takeWhile_append_dropWhile _ xs).symm, hsplit, hA, hB⟩

/-! ### The ready list -/

/-- What can happen to the ready list at `hd`, with the queue it holds. -/
inductive ReadyStep (thr : Ptr → Ptr) (hd : Ptr) : State × Queue → State × Queue → Prop
  /-- `ready_threads_list::link (n)`. -/
  | link {s s' : State} {q : Queue} {fuel : ℕ} {n : Ptr} :
      ReadyThreadsList.link thr fuel hd n s = some s' → ReadyStep thr hd (s, q) (s', q.push n)
  /-- `ready_threads_list::unlink_head ()`, which removes the head `x`. -/
  | unlinkHead {s s' : State} {q : Queue} {x t : Ptr} :
      head s hd = some x → ReadyThreadsList.unlinkHead thr hd s = some (s', t) →
      ReadyStep thr hd (s, q) (s', q.erase x)
  /-- `unlink ()` of a member. -/
  | unlink {s s' : State} {q : Queue} {x : Ptr} :
      x ∈ q.items → unlink x s = some s' → ReadyStep thr hd (s, q) (s', q.erase x)
  /-- A step of the rest of the system. -/
  | env {s s' : State} {q : Queue} :
      LinksAgreeOn (hd :: q.items) s s' → (∀ p ∈ q.items, readyKey thr s' p = readyKey thr s p) →
      ReadyStep thr hd (s, q) (s', q)

namespace ReadyThreadsList

/-- **Where the ready `link` puts a node**: right after the last member of priority `>=` its own,
whichever path it takes. -/
theorem link_place {fuel : ℕ} {n : Ptr} (h : QueueAt LinkOrder.prio (readyKey thr s) s hd q xs)
    (hs : link thr fuel hd n s = some s') :
    ∃ xs', ListAt s' hd xs' ∧ InsertedAfterLast LinkOrder.prio (readyKey thr s) n xs xs' :=
  ⟨_, (link_some h.list hs).1, h.insertedAfterLast n⟩

/-- **`unlink_head` serves the queue.** On a list with a member it returns: it removes the head,
the node the queue serves first, of highest priority and linked first among equals, returns that
node's thread and marks it running. -/
theorem unlinkHead_nonempty (h : QueueAt LinkOrder.prio (readyKey thr s) s hd q xs)
    (hne : xs ≠ []) :
    ∃ x s', head s hd = some x ∧ q.IsFirst LinkOrder.prio (readyKey thr s) x ∧
      unlinkHead thr hd s = some (s', thr x) ∧ s'.schedState (thr x) = .running := by
  obtain ⟨x, xs, rfl⟩ := List.exists_cons_of_ne_nil hne
  have hl := h.listAt_of_mem (List.mem_cons_self x xs)
  obtain ⟨s', hs', -, -, -, hdata⟩ := unlinkHead_eq thr hl
  exact ⟨x, s', by simp [head, hl.next_hd], h.isFirst, hs',
    by simp [(State.data_eq_iff.1 hdata).1]⟩

theorem unlinkHead_first {t : Ptr} (h : QueueAt LinkOrder.prio (readyKey thr s) s hd q xs)
    (hs : unlinkHead thr hd s = some (s', t)) :
    ∃ x, head s hd = some x ∧ t = thr x ∧ q.IsFirst LinkOrder.prio (readyKey thr s) x ∧
      s'.schedState t = .running := by
  cases xs with
  | nil => simp [unlinkHead_empty h.list.empty_nil] at hs
  | cons y ys =>
    obtain ⟨x, s'', hx, hfirst, hs'', hrun⟩ := unlinkHead_nonempty h (List.cons_ne_nil y ys)
    obtain ⟨rfl, rfl⟩ := Prod.mk.inj (Option.some.inj (hs.symm.trans hs''))
    exact ⟨x, hx, rfl, hfirst, hrun⟩

end ReadyThreadsList

theorem ReadyStep.queueAt {q' : Queue} (hst : ReadyStep thr hd (s, q) (s', q'))
    (h : QueueAt LinkOrder.prio (readyKey thr s) s hd q xs) :
    ∃ xs', QueueAt LinkOrder.prio (readyKey thr s') s' hd q' xs' := by
  cases hst with
  | link hs =>
    obtain ⟨hl, -, hdata⟩ := ReadyThreadsList.link_some h.list hs
    exact ⟨_, h.link hl fun p _ => by simp [readyKey, (State.data_eq_iff.1 hdata).2.1]⟩
  | @unlinkHead _ _ _ x _ hx hs =>
    cases xs with
    | nil => simp [ReadyThreadsList.unlinkHead_empty h.list.empty_nil] at hs
    | cons y ys =>
      have hl := h.listAt_of_mem (List.mem_cons_self y ys)
      obtain ⟨s'', hs'', hl', -, -, hdata⟩ := ReadyThreadsList.unlinkHead_eq thr hl
      rw [hs, Option.some.injEq, Prod.mk.injEq] at hs''
      obtain ⟨rfl, -⟩ := hs''
      obtain rfl : x = y := by simpa [head, hl.next_hd] using hx.symm
      have hkey : ∀ p ∈ (x :: ys).erase x, readyKey thr s' p = readyKey thr s p := fun p _ => by
        simp [readyKey, (State.data_eq_iff.1 hdata).2.1]
      exact ⟨ys, by simpa using h.erase (by simpa using hl') hkey⟩
  | unlink hx hs =>
    exact ⟨_, h.unlink hx hs fun p _ => by
      simp [readyKey, (State.data_eq_iff.1 (unlink_data hs)).2.1]⟩
  | env hs hkey =>
    exact ⟨xs, h.env (hs.mono fun p hp => List.cons_subset_cons _ h.perm.subset hp)
      fun p hp => hkey p (h.perm.subset hp)⟩

/-! ### The wait lists -/

/-- What can happen to a wait list at `hd`, with the queue it holds. `resume_one` calls a
`thread::resume` that keeps the list's pointers and its threads' priorities. -/
inductive WaitStep (thr : Ptr → Ptr) (hd : Ptr) : State × Queue → State × Queue → Prop
  /-- `waiting_threads_list::link (n)`. -/
  | link {s s' : State} {q : Queue} {fuel : ℕ} {n : Ptr} :
      WaitingThreadsList.link thr fuel hd n s = some s' → WaitStep thr hd (s, q) (s', q.push n)
  /-- `waiting_threads_list::resume_one ()`, which removes the head `x` (the header itself when
  the list is empty, which is no node of the queue). -/
  | resumeOne {s s' : State} {q : Queue} {x : Ptr} {l : List Ptr}
      {resume : Ptr → State → Option State} :
      (∀ th t t', resume th t = some t' → LinksAgreeOn (hd :: q.items) t t' ∧
        ∀ p ∈ q.items, waitKey thr t' p = waitKey thr t p) →
      head s hd = some x → WaitingThreadsList.resumeOne thr resume hd s = some (s', l) →
      WaitStep thr hd (s, q) (s', q.erase x)
  /-- `unlink ()` of a member, as on a timeout. -/
  | unlink {s s' : State} {q : Queue} {x : Ptr} :
      x ∈ q.items → unlink x s = some s' → WaitStep thr hd (s, q) (s', q.erase x)
  /-- A step of the rest of the system. -/
  | env {s s' : State} {q : Queue} :
      LinksAgreeOn (hd :: q.items) s s' → (∀ p ∈ q.items, waitKey thr s' p = waitKey thr s p) →
      WaitStep thr hd (s, q) (s', q)

namespace WaitingThreadsList

/-- **Where the wait `link` puts a node**: right after the last member of priority `>=` its own,
whichever path it takes. -/
theorem link_place {fuel : ℕ} {n : Ptr} (h : QueueAt LinkOrder.prio (waitKey thr s) s hd q xs)
    (hs : link thr fuel hd n s = some s') :
    ∃ xs', ListAt s' hd xs' ∧ InsertedAfterLast LinkOrder.prio (waitKey thr s) n xs xs' :=
  ⟨_, (link_some h.list hs).1, h.insertedAfterLast n⟩

/-- **`resume_one` serves the queue.** On a list with a member, it unlinks the head, the node the
queue serves first, then resumes its thread unless it is destroyed. -/
theorem resumeOne_first {resume : Ptr → State → Option State}
    (h : QueueAt LinkOrder.prio (waitKey thr s) s hd q xs) (hne : xs ≠ []) :
    ∃ x s₁, head s hd = some x ∧ q.IsFirst LinkOrder.prio (waitKey thr s) x ∧
      unlink x s = some s₁ ∧
      resumeOne thr resume hd s =
        if s.schedState (thr x) ≠ .destroyed then (resume (thr x) s₁).map (·, [thr x])
        else some (s₁, []) := by
  obtain ⟨x, xs, rfl⟩ := List.exists_cons_of_ne_nil hne
  have hl := h.listAt_of_mem (List.mem_cons_self x xs)
  obtain ⟨s₁, hs₁, -, -, -, -, hone⟩ := resumeOne_cons thr resume hl
  exact ⟨x, s₁, by simp [head, hl.next_hd], h.isFirst, hs₁, hone⟩

end WaitingThreadsList

theorem WaitStep.queueAt {q' : Queue} (hst : WaitStep thr hd (s, q) (s', q'))
    (h : QueueAt LinkOrder.prio (waitKey thr s) s hd q xs) :
    ∃ xs', QueueAt LinkOrder.prio (waitKey thr s') s' hd q' xs' := by
  cases hst with
  | link hs =>
    obtain ⟨hl, -, hdata⟩ := WaitingThreadsList.link_some h.list hs
    exact ⟨_, h.link hl fun p _ => by simp [waitKey, (State.data_eq_iff.1 hdata).2.2.1]⟩
  | @resumeOne _ _ _ x _ _ hres hx hs =>
    cases xs with
    | nil =>
      rw [WaitingThreadsList.resumeOne_of_empty h.list.empty_nil, Option.some.injEq,
        Prod.mk.injEq] at hs
      obtain ⟨rfl, -⟩ := hs
      rcases h.list with hl | ⟨hz, -⟩
      · exact ⟨[], by simpa using h.erase (by simpa using hl) fun p hp => by simp at hp⟩
      · simp [head, hz.2] at hx
    | cons y ys =>
      have hl := h.listAt_of_mem (List.mem_cons_self y ys)
      obtain rfl : x = y := by simpa [head, hl.next_hd] using hx.symm
      obtain ⟨s₁, -, hl₁, -, -, hdata, hone⟩ := WaitingThreadsList.resumeOne_cons thr _ hl
      have hkey : ∀ p ∈ (x :: ys).erase x, waitKey thr s₁ p = waitKey thr s p := fun p _ => by
        simp [waitKey, (State.data_eq_iff.1 hdata).2.2.1]
      have h₁ : QueueAt LinkOrder.prio (waitKey thr s₁) s₁ hd (q.erase x) ys := by
        simpa using h.erase (by simpa using hl₁) hkey
      have hys : ∀ p ∈ ys, p ∈ q.items := fun p hp => h.perm.subset (List.mem_cons_of_mem x hp)
      rw [hone] at hs
      split_ifs at hs
      · obtain ⟨t, ht, he⟩ := Option.map_eq_some'.1 hs
        cases he
        obtain ⟨hag, hkey'⟩ := hres _ _ _ ht
        exact ⟨ys, h₁.env (hag.mono fun p hp => List.cons_subset_cons _ hys hp)
          fun p hp => hkey' p (hys p hp)⟩
      · cases hs
        exact ⟨ys, h₁⟩
  | unlink hx hs =>
    exact ⟨_, h.unlink hx hs fun p _ => by
      simp [waitKey, (State.data_eq_iff.1 (unlink_data hs)).2.2.1]⟩
  | env hs hkey =>
    exact ⟨xs, h.env (hs.mono fun p hp => List.cons_subset_cons _ h.perm.subset hp)
      fun p hp => hkey p (h.perm.subset hp)⟩

/-! ### The law -/

/-- **The ready list and the wait lists refine a stable priority queue.** From an empty list (for
the ready list, also from a header still zero), every run of the list's operations (`link`,
`unlink_head` on the ready list, `resume_one` on a wait list, `unlink` of a member) and of steps
of the rest of the system that change no linked thread's priority reaches only states where the
list holds its queue: head to tail, the nodes linked and not removed, by priority nonincreasing,
equal priorities in the order they were linked. Each `link` puts its node right after the last
member of priority `>=` its own, and returns with `size - 1` moves of the walk allowed;
`unlink_head` returns on a list with a member, and `unlink_head` and `resume_one` remove the node
the queue serves first. -/
theorem priorityLists_refine_queue (thr : Ptr → Ptr) (hd : Ptr) :
    (∀ {s₀ : State} {c : State × Queue}, StaticListAt s₀ hd [] →
      ReflTransGen (ReadyStep thr hd) (s₀, Queue.empty) c →
      ∃ xs, QueueAt LinkOrder.prio (readyKey thr c.1) c.1 hd c.2 xs) ∧
    (∀ {s₀ : State} {c : State × Queue}, ListAt s₀ hd [] →
      ReflTransGen (WaitStep thr hd) (s₀, Queue.empty) c →
      ∃ xs, QueueAt LinkOrder.prio (waitKey thr c.1) c.1 hd c.2 xs) ∧
    (∀ {s s' : State} {q : Queue} {xs : List Ptr} {fuel : ℕ} {n : Ptr},
      QueueAt LinkOrder.prio (readyKey thr s) s hd q xs →
      ReadyThreadsList.link thr fuel hd n s = some s' →
      ∃ xs', ListAt s' hd xs' ∧ InsertedAfterLast LinkOrder.prio (readyKey thr s) n xs xs') ∧
    (∀ {s s' : State} {q : Queue} {xs : List Ptr} {fuel : ℕ} {n : Ptr},
      QueueAt LinkOrder.prio (waitKey thr s) s hd q xs →
      WaitingThreadsList.link thr fuel hd n s = some s' →
      ∃ xs', ListAt s' hd xs' ∧ InsertedAfterLast LinkOrder.prio (waitKey thr s) n xs xs') ∧
    (∀ {s : State} {xs : List Ptr} {fuel : ℕ} {n : Ptr}, StaticListAt s hd xs → Detached s n →
      n ≠ hd → xs.length ≤ fuel + 1 → ∃ s', ReadyThreadsList.link thr fuel hd n s = some s') ∧
    (∀ {s : State} {xs : List Ptr} {fuel : ℕ} {n : Ptr}, ListAt s hd xs → Detached s n →
      xs.length ≤ fuel + 1 → ∃ s', WaitingThreadsList.link thr fuel hd n s = some s') ∧
    (∀ {s : State} {q : Queue} {xs : List Ptr},
      QueueAt LinkOrder.prio (readyKey thr s) s hd q xs → xs ≠ [] →
      ∃ x s', head s hd = some x ∧ q.IsFirst LinkOrder.prio (readyKey thr s) x ∧
        ReadyThreadsList.unlinkHead thr hd s = some (s', thr x) ∧
        s'.schedState (thr x) = .running) ∧
    (∀ {s s' : State} {q : Queue} {xs : List Ptr} {t : Ptr},
      QueueAt LinkOrder.prio (readyKey thr s) s hd q xs →
      ReadyThreadsList.unlinkHead thr hd s = some (s', t) →
      ∃ x, head s hd = some x ∧ t = thr x ∧ q.IsFirst LinkOrder.prio (readyKey thr s) x ∧
        s'.schedState t = .running) ∧
    (∀ {s : State} {q : Queue} {xs : List Ptr} {resume : Ptr → State → Option State},
      QueueAt LinkOrder.prio (waitKey thr s) s hd q xs → xs ≠ [] →
      ∃ x s₁, head s hd = some x ∧ q.IsFirst LinkOrder.prio (waitKey thr s) x ∧
        unlink x s = some s₁ ∧
        WaitingThreadsList.resumeOne thr resume hd s =
          if s.schedState (thr x) ≠ .destroyed then (resume (thr x) s₁).map (·, [thr x])
          else some (s₁, [])) :=
  ⟨fun h₀ hrun => run_invariant (fun c => ∃ xs, QueueAt _ (readyKey thr c.1) c.1 hd c.2 xs)
      (fun hst ⟨_, hxs⟩ => ReadyStep.queueAt hst hxs) hrun ⟨[], QueueAt.init h₀ _ _⟩,
    fun h₀ hrun => run_invariant (fun c => ∃ xs, QueueAt _ (waitKey thr c.1) c.1 hd c.2 xs)
      (fun hst ⟨_, hxs⟩ => WaitStep.queueAt hst hxs) hrun ⟨[], QueueAt.init h₀.staticListAt _ _⟩,
    ReadyThreadsList.link_place, WaitingThreadsList.link_place,
    fun h hn hnh hf => (ReadyThreadsList.link_eq h hn hnh hf).imp fun _ h => h.1,
    fun h hn hf => (WaitingThreadsList.link_eq h hn hf).imp fun _ h => h.1,
    ReadyThreadsList.unlinkHead_nonempty, ReadyThreadsList.unlinkHead_first,
    WaitingThreadsList.resumeOne_first⟩

/-- Six waiters of `sched_prio ()` `5, 9, 5, 7, 9, 1`, linked in that order, stand by priority,
equal priorities in the order they came. -/
example : ((do
    let s ← WaitingThreadsList.link id 5 0 1
      { ringState 0 [] with schedPrio := fun t => [0, 5, 9, 5, 7, 9, 1].getD t 0 }
    let s ← WaitingThreadsList.link id 5 0 2 s
    let s ← WaitingThreadsList.link id 5 0 3 s
    let s ← WaitingThreadsList.link id 5 0 4 s
    let s ← WaitingThreadsList.link id 5 0 5 s
    WaitingThreadsList.link id 5 0 6 s).any fun s => decide (ListAt s 0 [2, 5, 4, 1, 3, 6])) =
      true := by
  decide

/-- Threads of `prio_` `3, 7, 7, 5` made ready in that order are dispatched second, third,
fourth, first. -/
example : (do
    let s ← ReadyThreadsList.link id 3 0 1
      { ringState 0 [] with prio := fun t => [0, 3, 7, 7, 5].getD t 0 }
    let s ← ReadyThreadsList.link id 3 0 2 s
    let s ← ReadyThreadsList.link id 3 0 3 s
    let s ← ReadyThreadsList.link id 3 0 4 s
    let (s, a) ← ReadyThreadsList.unlinkHead id 0 s
    let (s, b) ← ReadyThreadsList.unlinkHead id 0 s
    let (s, c) ← ReadyThreadsList.unlinkHead id 0 s
    let (_, d) ← ReadyThreadsList.unlinkHead id 0 s
    pure [a, b, c, d]) = some [2, 3, 4, 1] := by
  decide

end MicroOsPlus.Rtos
