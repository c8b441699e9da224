import MicroOsPlus.Rtos.OrderedLink

/-!
# The scheduler's lists

The six list classes of `os-lists.cpp`, each with the operations the kernel calls:

* `top_threads_list`, `terminated_threads_list` — static lists (`static_double_list`), whose
  header may still be zero when the first `link` comes: "If this is the first time, initialise
  the list to empty"; they append.
* `thread_children_list` — a constructed list (`double_list`, cleared by its constructor); it
  appends.
* `ready_threads_list` — static, ordered by `thread_.prio_`; `link` marks the thread ready,
  `unlink_head` removes the head and marks its thread running.
* `waiting_threads_list` — constructed, ordered by `thread_.sched_prio()`; `resume_one` removes
  the head and resumes its thread unless it is destroyed, `resume_all` repeats it until the list
  is empty.
* `clock_timestamps_list` — constructed, ordered by `timestamp`; `check_timestamp (now)` runs
  the `action()` of the head while its timestamp is not in the future.

A node is passed by its address. A list's node refers to its record by a reference the list
only reads (`waiting_thread_node::thread_`, `timeout_thread_node::thread`, `timer_node::tmr`):
`thr n` is the record of node `n`. What `thread::resume()` and a timer's interrupt service routine
do to the state is not in the sources: both are parameters, as the virtual `action()` of a
timestamp node is a parameter of `check_timestamp`. The loops take the number of iterations they
may run (`fuel`); critical sections are not modelled, the model having no interrupts.

Each definition is followed by its spec lemma on `ListAt`.
-/

namespace MicroOsPlus.Rtos

variable {s : State} {hd n : Ptr} {xs : List Ptr}

/-- The shared body of the appending `link`s: `insert_after (node, tail ())`. -/
def linkTail (hd n : Ptr) (s : State) : Option State := do
  let tl ← tail s hd
  insertAfter n tl s

/-- "If this is the first time, initialise the list to empty": the first `link` of a static list
clears a header that BSS initialisation left zero. -/
def clearIfFirst (hd : Ptr) (s : State) : State := if s.prev hd = none then clear hd s else s

/-- A static list: either a list, or a header still zero, with no member. -/
def StaticListAt (s : State) (hd : Ptr) (xs : List Ptr) : Prop :=
  ListAt s hd xs ∨ (Detached s hd ∧ xs = [])

theorem ListAt.staticListAt (h : ListAt s hd xs) : StaticListAt s hd xs := Or.inl h

theorem StaticListAt.listAt (h : StaticListAt s hd xs) (hp : s.prev hd ≠ none) : ListAt s hd xs :=
  h.resolve_right fun hz => hp hz.1.1

/-- A static list with no member is `empty()`. -/
theorem StaticListAt.empty_nil (h : StaticListAt s hd []) : empty s hd = true := by
  rcases h with h | ⟨hz, -⟩
  · exact h.empty_iff.2 rfl
  · simp [empty, hz.2]

/-- A header holds one list, or is still zero with no member. -/
theorem StaticListAt.unique {ys : List Ptr} (h : StaticListAt s hd xs) (h' : StaticListAt s hd ys) :
    xs = ys := by
  rcases h with h | ⟨hz, rfl⟩ <;> rcases h' with h' | ⟨hz', rfl⟩
  · exact h.unique h'
  · exact absurd hz'.2 (h.next_ne_none (List.mem_cons_self _ _))
  · exact absurd hz.2 (h'.next_ne_none (List.mem_cons_self _ _))
  · rfl

theorem linkTail_eq (h : ListAt s hd xs) (hn : Detached s n) :
    ∃ s', linkTail hd n s = some s' ∧ ListAt s' hd (xs ++ [n]) ∧
      LinksAgreeOff (n :: hd :: xs) s s' := by
  have ha : (hd :: xs).getLast? = some (xs.getLast?.getD hd) := by simp [List.getLast?_cons]
  obtain ⟨s', hs', hl, hag⟩ := (show ListAt s hd (xs ++ []) by simpa using h).insert hn ha
  refine ⟨s', ?_, by simpa using hl, by simpa using hag⟩
  simp [linkTail, tail, h.prev_hd, hs']

/-- `clearIfFirst` leaves a list alone and turns a zero header into an empty list. -/
theorem clearIfFirst_listAt (h : StaticListAt s hd xs) :
    ListAt (clearIfFirst hd s) hd xs ∧ LinksAgreeOff [hd] s (clearIfFirst hd s) := by
  rcases h with h | ⟨h, rfl⟩
  · have : s.prev hd ≠ none := h.prev_ne_none (List.mem_cons_self _ _)
    simpa [clearIfFirst, this] using ⟨h, LinksAgreeOff.refl _ _⟩
  · refine ⟨by simpa [clearIfFirst, h.1] using ListAt.clear s hd, fun p hp => ?_⟩
    simp [clearIfFirst, h.1, List.mem_singleton.not.1 hp]

theorem clearIfFirst_of_listAt (h : ListAt s hd xs) : clearIfFirst hd s = s := by
  simp [clearIfFirst, h.prev_ne_none (List.mem_cons_self _ _)]

theorem schedState_clearIfFirst (hd : Ptr) (s : State) :
    (clearIfFirst hd s).schedState = s.schedState := by
  unfold clearIfFirst; split_ifs <;> rfl

@[simp] theorem data_clearIfFirst (hd : Ptr) (s : State) : (clearIfFirst hd s).data = s.data := by
  unfold clearIfFirst; split_ifs <;> rfl

theorem prio_clearIfFirst (hd : Ptr) (s : State) : (clearIfFirst hd s).prio = s.prio :=
  (State.data_eq_iff.1 (data_clearIfFirst hd s)).2.1

theorem Detached.clearIfFirst {p : Ptr} (h : Detached s p) (hp : p ≠ hd) :
    Detached (clearIfFirst hd s) p := by
  unfold MicroOsPlus.Rtos.clearIfFirst; split_ifs <;> simp_all [Detached]

theorem linkTail_data {s' : State} (h : linkTail hd n s = some s') : s'.data = s.data := by
  simp only [linkTail, Option.bind_eq_bind, Option.bind_eq_some] at h
  obtain ⟨_, -, h⟩ := h
  exact insertAfter_data h

theorem linkTail_zero (h : s.prev hd = none) : linkTail hd n s = none := by
  simp [linkTail, tail, h]

/-- An appending `link` that returns appended a detached node. -/
theorem linkTail_some {s' : State} (h : ListAt s hd xs) (hs : linkTail hd n s = some s') :
    ListAt s' hd (xs ++ [n]) ∧ LinksAgreeOff (n :: hd :: xs) s s' := by
  have hn : Detached s n := by
    simp only [linkTail, Option.bind_eq_bind, Option.bind_eq_some] at hs
    obtain ⟨_, -, hs⟩ := hs
    exact insertAfter_detached hs
  obtain ⟨s'', hs'', hl, hag⟩ := linkTail_eq h hn
  rw [hs'', Option.some.injEq] at hs
  exact hs ▸ ⟨hl, hag⟩

/-- The appending `link` of the static lists, `top_threads_list::link` and
`terminated_threads_list::link`: a zero header is cleared first. -/
theorem linkTail_clearIfFirst_eq (h : StaticListAt s hd xs) (hn : Detached s n) (hnh : n ≠ hd) :
    ∃ s', linkTail hd n (clearIfFirst hd s) = some s' ∧ ListAt s' hd (xs ++ [n]) ∧
      LinksAgreeOff (n :: hd :: xs) s s' ∧ s'.data = s.data := by
  obtain ⟨hc, hag⟩ := clearIfFirst_listAt h
  obtain ⟨s', hs', hl, hag'⟩ := linkTail_eq hc (hn.clearIfFirst hnh)
  exact ⟨s', hs', hl, (hag.mono (by simp)).trans hag', by rw [linkTail_data hs', data_clearIfFirst]⟩

theorem linkOrdered_data {stay : ℕ → ℕ → Bool} {key : Ptr → ℕ} {fuel : ℕ} {s' : State}
    (h : linkOrdered stay key fuel hd n s = some s') : s'.data = s.data := by
  simp only [linkOrdered, Option.bind_eq_bind, Option.bind_eq_some] at h
  obtain ⟨_, -, h⟩ := h
  exact insertAfter_data h

/-! ### Appending lists -/

namespace TopThreadsList

/-- `top_threads_list::link`: append `thread.child_links_`, the node `n`. -/
def link (hd n : Ptr) (s : State) : Option State := linkTail hd n (clearIfFirst hd s)

end TopThreadsList

namespace ThreadChildrenList

/-- `thread_children_list::link`: append `thread.child_links_`, the node `n`. -/
def link (hd n : Ptr) (s : State) : Option State := linkTail hd n s

end ThreadChildrenList

namespace TerminatedThreadsList

/-- `terminated_threads_list::link`: append the node. -/
def link (hd n : Ptr) (s : State) : Option State := linkTail hd n (clearIfFirst hd s)

end TerminatedThreadsList

/-! ### The ready list -/

namespace ReadyThreadsList

/-- `ready_threads_list::link`: insert by `thread_.prio_`, then mark the thread ready. -/
def link (thr : Ptr → Ptr) (fuel : ℕ) (hd n : Ptr) (s : State) : Option State := do
  let s := clearIfFirst hd s
  let s ← linkOrdered (fun x k => decide (k ≤ x)) (fun p => s.prio (thr p)) fuel hd n s
  pure (s.setSchedState (thr n) .ready)

theorem link_eq {thr : Ptr → Ptr} {fuel : ℕ} (h : StaticListAt s hd xs) (hn : Detached s n)
    (hnh : n ≠ hd) (hf : xs.length ≤ fuel + 1) :
    ∃ s', link thr fuel hd n s = some s' ∧
      ListAt s' hd (linkSpec (fun x => decide (s.prio (thr n) ≤ s.prio (thr x))) n xs) ∧
      LinksAgreeOff (n :: hd :: xs) s s' ∧ s'.data = (s.setSchedState (thr n) .ready).data := by
  obtain ⟨hc, hag⟩ := clearIfFirst_listAt h
  obtain ⟨s', hs', hl, hag'⟩ := linkOrdered_eq (fun x k => decide (k ≤ x))
    (fun p => (clearIfFirst hd s).prio (thr p)) hc (hn.clearIfFirst hnh) hf
  refine ⟨s'.setSchedState (thr n) .ready, by simp [link, hs'], ?_,
    (hag.mono (by simp)).trans hag', State.data_setSchedState (by simp [linkOrdered_data hs']) _ _⟩
  simpa [prio_clearIfFirst] using hl

/-- Whatever the allowance, a ready `link` that returns, on a list or a zero header, returns
what `link_eq` says. -/
theorem link_some {thr : Ptr → Ptr} {fuel : ℕ} {s' : State} (h : StaticListAt s hd xs)
    (hs : link thr fuel hd n s = some s') :
    ListAt s' hd (linkSpec (fun x => decide (s.prio (thr n) ≤ s.prio (thr x))) n xs) ∧
      LinksAgreeOff (n :: hd :: xs) s s' ∧ s'.data = (s.setSchedState (thr n) .ready).data := by
  obtain ⟨hc, hag⟩ := clearIfFirst_listAt h
  simp only [link, Option.bind_eq_bind, Option.bind_eq_some, Option.pure_def,
    Option.some.injEq] at hs
  obtain ⟨s₁, hs₁, rfl⟩ := hs
  obtain ⟨hl, hag'⟩ := linkOrdered_some hc hs₁
  exact ⟨by simpa [prio_clearIfFirst] using hl, (hag.mono (by simp)).trans hag',
    State.data_setSchedState (by simp [linkOrdered_data hs₁]) _ _⟩

/-- `ready_threads_list::unlink_head`: assert the list is not empty, remove its head, mark the
head's thread running and return it. -/
def unlinkHead (thr : Ptr → Ptr) (hd : Ptr) (s : State) : Option (State × Ptr) :=
  if empty s hd then none
  else do
    let h ← head s hd
    let s ← unlink h s
    pure (s.setSchedState (thr h) .running, thr h)

theorem unlinkHead_eq (thr : Ptr → Ptr) {x : Ptr} (h : ListAt s hd (x :: xs)) :
    ∃ s', unlinkHead thr hd s = some (s', thr x) ∧ ListAt s' hd xs ∧ Detached s' x ∧
      LinksAgreeOff (hd :: x :: xs) s s' ∧ s'.data = (s.setSchedState (thr x) .running).data := by
  obtain ⟨s', hs', hl, hx, hag⟩ := (show ListAt s hd ([] ++ x :: xs) from h).erase
  refine ⟨s'.setSchedState (thr x) .running, ?_, by simpa using hl, hx, by simpa using hag,
    State.data_setSchedState (unlink_data hs') _ _⟩
  simp [unlinkHead, h.empty_cons, head, h.next_hd, hs']

theorem unlinkHead_empty {thr : Ptr → Ptr} (h : empty s hd = true) :
    unlinkHead thr hd s = none := by
  simp [unlinkHead, h]

end ReadyThreadsList

/-! ### Wait lists -/

namespace WaitingThreadsList

/-- `waiting_threads_list::link`: insert by `thread_.sched_prio()`. -/
def link (thr : Ptr → Ptr) (fuel : ℕ) (hd n : Ptr) (s : State) : Option State :=
  linkOrdered (fun x k => decide (k ≤ x)) (fun p => s.schedPrio (thr p)) fuel hd n s

theorem link_eq {thr : Ptr → Ptr} {fuel : ℕ} (h : ListAt s hd xs) (hn : Detached s n)
    (hf : xs.length ≤ fuel + 1) :
    ∃ s', link thr fuel hd n s = some s' ∧
      ListAt s' hd (linkSpec (fun x => decide (s.schedPrio (thr n) ≤ s.schedPrio (thr x))) n xs) ∧
      LinksAgreeOff (n :: hd :: xs) s s' ∧ s'.data = s.data := by
  obtain ⟨s', hs', hl, hag⟩ := linkOrdered_eq (fun x k => decide (k ≤ x))
    (fun p => s.schedPrio (thr p)) h hn hf
  exact ⟨s', hs', hl, hag, linkOrdered_data hs'⟩

/-- Whatever the allowance, a wait `link` that returns returns what `link_eq` says; on a header
still zero it does not return. -/
theorem link_some {thr : Ptr → Ptr} {fuel : ℕ} {s' : State} (h : StaticListAt s hd xs)
    (hs : link thr fuel hd n s = some s') :
    ListAt s' hd (linkSpec (fun x => decide (s.schedPrio (thr n) ≤ s.schedPrio (thr x))) n xs) ∧
      LinksAgreeOff (n :: hd :: xs) s s' ∧ s'.data = s.data := by
  have hp : s.prev hd ≠ none := fun e => by simp [link, linkOrdered_zero e] at hs
  exact ⟨(linkOrdered_some (h.listAt hp) hs).1, (linkOrdered_some (h.listAt hp) hs).2,
    linkOrdered_data hs⟩

/-- `waiting_threads_list::resume_one`: if the list is not empty, remove its head and, unless
the head's thread is destroyed, call `resume()` on it (`resume t` is what it does to the state).
Also returns the threads `resume()` was called on. -/
def resumeOne (thr : Ptr → Ptr) (resume : Ptr → State → Option State) (hd : Ptr) (s : State) :
    Option (State × List Ptr) :=
  if empty s hd then some (s, [])
  else do
    let h ← head s hd
    let s ← unlink h s
    if s.schedState (thr h) ≠ .destroyed then do
      let s ← resume (thr h) s
      pure (s, [thr h])
    else pure (s, [])

theorem resumeOne_of_empty {thr : Ptr → Ptr} {resume : Ptr → State → Option State}
    (h : empty s hd = true) : resumeOne thr resume hd s = some (s, []) := by
  simp [resumeOne, h]

/-- `resume_one` on a list with head `x`: `x` is unlinked, then its thread resumed unless it is
destroyed. -/
theorem resumeOne_cons (thr : Ptr → Ptr) (resume : Ptr → State → Option State) {x : Ptr}
    (h : ListAt s hd (x :: xs)) :
    ∃ s₁, unlink x s = some s₁ ∧ ListAt s₁ hd xs ∧ Detached s₁ x ∧
      LinksAgreeOff (hd :: x :: xs) s s₁ ∧ s₁.data = s.data ∧
      resumeOne thr resume hd s =
        if s.schedState (thr x) ≠ .destroyed then (resume (thr x) s₁).map (·, [thr x])
        else some (s₁, []) := by
  obtain ⟨s₁, hs₁, hl, hx, hag⟩ := (show ListAt s hd ([] ++ x :: xs) from h).erase
  have hd₁ := unlink_data hs₁
  refine ⟨s₁, hs₁, hl, hx, hag, hd₁, ?_⟩
  rw [State.data_eq_iff] at hd₁
  by_cases hx : s.schedState (thr x) = .destroyed <;>
    simp [resumeOne, h.empty_cons, head, h.next_hd, hs₁, hd₁.1, hx, Option.map_eq_bind]

/-- `resume_one` on a wait list whose only thread is destroyed empties the list and does not
call `thread::resume` (here one that would fail). -/
example : (resumeOne id (fun _ _ => none) 0 ((ringState 0 [1]).setSchedState 1 .destroyed)).map
    (fun r => (decide (ListAt r.1 0 []), r.2)) = some (true, []) := by
  decide

/-- `waiting_threads_list::resume_all`: `resume_one` while the list is not empty, at most `fuel`
times. -/
def resumeAll (thr : Ptr → Ptr) (resume : Ptr → State → Option State) (hd : Ptr) :
    ℕ → State → Option (State × List Ptr)
  | fuel, s =>
    if empty s hd then some (s, [])
    else match fuel with
      | 0 => none
      | f + 1 => do
        let (s, l₁) ← resumeOne thr resume hd s
        let (s, l₂) ← resumeAll thr resume hd f s
        pure (s, l₁ ++ l₂)

end WaitingThreadsList

/-! ### The clock list -/

namespace ClockTimestampsList

/-- `clock_timestamps_list::link`: insert by `timestamp`. -/
def link (fuel : ℕ) (hd n : Ptr) (s : State) : Option State :=
  linkOrdered (fun x k => decide (x ≤ k)) s.timestamp fuel hd n s

theorem link_eq {fuel : ℕ} (h : ListAt s hd xs) (hn : Detached s n) (hf : xs.length ≤ fuel + 1) :
    ∃ s', link fuel hd n s = some s' ∧
      ListAt s' hd (linkSpec (fun x => decide (s.timestamp x ≤ s.timestamp n)) n xs) ∧
      LinksAgreeOff (n :: hd :: xs) s s' ∧ s'.data = s.data := by
  obtain ⟨s', hs', hl, hag⟩ := linkOrdered_eq (fun x k => decide (x ≤ k)) s.timestamp h hn hf
  exact ⟨s', hs', hl, hag, linkOrdered_data hs'⟩

/-- Whatever the allowance, a clock `link` that returns returns what `link_eq` says; on a header
still zero it does not return. -/
theorem link_some {fuel : ℕ} {s' : State} (h : StaticListAt s hd xs)
    (hs : link fuel hd n s = some s') :
    ListAt s' hd (linkSpec (fun x => decide (s.timestamp x ≤ s.timestamp n)) n xs) ∧
      LinksAgreeOff (n :: hd :: xs) s s' ∧ s'.data = s.data := by
  have hp : s.prev hd ≠ none := fun e => by simp [link, linkOrdered_zero e] at hs
  exact ⟨(linkOrdered_some (h.listAt hp) hs).1, (linkOrdered_some (h.listAt hp) hs).2,
    linkOrdered_data hs⟩

/-- The loop of `check_timestamp`: while the list is not empty and its head's timestamp is not
after `now`, run the head's `action()`; at most `fuel` actions. Also returns the nodes fired,
each with the timestamp it fired at. -/
def checkLoop (action : Ptr → State → Option State) (hd : Ptr) (now : ℕ) :
    ℕ → State → Option (State × List (Ptr × ℕ))
  | fuel, s =>
    if empty s hd then some (s, [])
    else do
      let h ← head s hd
      let ts ← keyAt s.timestamp hd h
      if ts ≤ now then
        match fuel with
        | 0 => none
        | f + 1 => do
          let s ← action h s
          let (s, log) ← checkLoop action hd now f s
          pure (s, (h, ts) :: log)
      else pure (s, [])

/-- `clock_timestamps_list::check_timestamp`: nothing while the header is still zero, otherwise
the loop. -/
def checkTimestamp (action : Ptr → State → Option State) (hd : Ptr) (now fuel : ℕ) (s : State) :
    Option (State × List (Ptr × ℕ)) :=
  if s.next hd = none then some (s, []) else checkLoop action hd now fuel s

end ClockTimestampsList

/-! ### Timestamp nodes -/

namespace TimeoutThreadNode

/-- `timeout_thread_node::action`: unlink the node, then resume its thread unless it is
destroyed. -/
def action (thr : Ptr → Ptr) (resume : Ptr → State → Option State) (n : Ptr) (s : State) :
    Option State := do
  let s ← unlink n s
  if s.schedState (thr n) ≠ .destroyed then resume (thr n) s else pure s

end TimeoutThreadNode

namespace TimerNode

/-- `timer_node::action`: unlink the node, then run the timer's interrupt service routine
(`isr n` is what it does to the state). -/
def action (isr : Ptr → State → Option State) (n : Ptr) (s : State) : Option State := do
  let s ← unlink n s
  isr n s

end TimerNode

/-! ### The lists by class -/

/-- The classes of lists of the kernel. -/
inductive ListKind where
  | top
  | children
  | ready
  | waiting
  | terminated
  | clock
  deriving DecidableEq, Repr

namespace ListKind

/-- Static lists (`static_double_list`) may still have a zero header; the others are cleared by
their constructor. -/
def isStatic : ListKind → Bool
  | top | ready | terminated => true
  | children | waiting | clock => false

/-- The classes whose `link` appends at the tail. -/
def appends : ListKind → Bool
  | top | children | terminated => true
  | ready | waiting | clock => false

/-- The `link` of each class. -/
def link (thr : Ptr → Ptr) (fuel : ℕ) : ListKind → Ptr → Ptr → State → Option State
  | top => TopThreadsList.link
  | children => ThreadChildrenList.link
  | ready => ReadyThreadsList.link thr fuel
  | waiting => WaitingThreadsList.link thr fuel
  | terminated => TerminatedThreadsList.link
  | clock => ClockTimestampsList.link fuel

variable {thr : Ptr → Ptr} {fuel : ℕ} {s' : State}

/-- The appending `link`s that return, on a list or a header still zero, put the node at the
tail, and write only the pointers of the node, the header and the members. -/
theorem link_append (k : ListKind) (hk : k.appends = true) (h : StaticListAt s hd xs)
    (hs : k.link thr fuel hd n s = some s') :
    ListAt s' hd (xs ++ [n]) ∧ LinksAgreeOff (n :: hd :: xs) s s' ∧ s'.data = s.data := by
  obtain ⟨hc, hag⟩ := clearIfFirst_listAt h
  have htail : ∀ s'', linkTail hd n (clearIfFirst hd s) = some s'' →
      ListAt s'' hd (xs ++ [n]) ∧ LinksAgreeOff (n :: hd :: xs) s s'' ∧ s''.data = s.data :=
    fun s'' hs'' => ⟨(linkTail_some hc hs'').1,
      (hag.mono (by simp)).trans (linkTail_some hc hs'').2,
      by rw [linkTail_data hs'', data_clearIfFirst]⟩
  cases k with
  | top | terminated => exact htail s' hs
  | children =>
    -- a constructed list does not clear a zero header: there `link` does not return
    have hp : s.prev hd ≠ none := fun e => by
      simp [link, ThreadChildrenList.link, linkTail_zero e] at hs
    exact htail s' (by rw [clearIfFirst, if_neg hp]; exact hs)
  | ready | waiting | clock => cases hk

/-- Every class's `link` that returns, on a list or a header still zero: the node is spliced
in after the header or a member, only the pointers of the node, the header and the members are
written, and nothing else changes but the ready list's marking of the thread. -/
theorem link_spec (k : ListKind) (h : StaticListAt s hd xs)
    (hs : k.link thr fuel hd n s = some s') :
    ∃ ys zs, xs = ys ++ zs ∧ ListAt s' hd (ys ++ n :: zs) ∧ LinksAgreeOff (n :: hd :: xs) s s' ∧
      s'.data = (if k = ready then s.setSchedState (thr n) .ready else s).data := by
  obtain ⟨hc, hag⟩ := clearIfFirst_listAt h
  have hc' : LinksAgreeOff (n :: hd :: xs) s (clearIfFirst hd s) := hag.mono (by simp)
  have hord : ∀ {stay key}, ∀ s'', linkOrdered stay key fuel hd n (clearIfFirst hd s) = some s'' →
      ∃ ys zs, xs = ys ++ zs ∧ ListAt s'' hd (ys ++ n :: zs) ∧ LinksAgreeOff (n :: hd :: xs) s s'' ∧
      s''.data = s.data := by
    intro stay key s'' hs''
    obtain ⟨hl, hag'⟩ := linkOrdered_some hc hs''
    exact ⟨_, _, (linkSplit_append _ xs).symm, hl, hc'.trans hag',
      by rw [linkOrdered_data hs'', data_clearIfFirst]⟩
  -- the constructed lists do not clear a zero header: there `link` does not return
  have hfirst : s.prev hd ≠ none → clearIfFirst hd s = s := fun hp => by simp [clearIfFirst, hp]
  cases k with
  | top | children | terminated =>
    obtain ⟨hl, hag', hdata⟩ := link_append _ (by rfl) h hs
    exact ⟨xs, [], by simp, hl, hag', by simpa using hdata⟩
  | waiting =>
    have hp : s.prev hd ≠ none := fun e => by
      simp [link, WaitingThreadsList.link, linkOrdered_zero e] at hs
    simpa [hfirst hp] using hord s' (by rwa [hfirst hp])
  | clock =>
    have hp : s.prev hd ≠ none := fun e => by
      simp [link, ClockTimestampsList.link, linkOrdered_zero e] at hs
    simpa [hfirst hp] using hord s' (by rwa [hfirst hp])
  | ready =>
    simp only [link, ReadyThreadsList.link, Option.bind_eq_bind, Option.bind_eq_some,
      Option.pure_def, Option.some.injEq] at hs
    obtain ⟨s₁, hs₁, rfl⟩ := hs
    obtain ⟨ys, zs, hxs, hl, hag', hdata⟩ := hord s₁ hs₁
    exact ⟨ys, zs, hxs, by simpa using hl, hag', by simpa using State.data_setSchedState hdata _ _⟩

/-- With `size - 1` moves of the walk allowed, every class's `link` of a detached node returns. -/
theorem link_isSome (k : ListKind) (h : ListAt s hd xs) (hn : Detached s n)
    (hf : xs.length ≤ fuel + 1) : ∃ s', k.link thr fuel hd n s = some s' := by
  have hnh : n ≠ hd := fun e => h.not_mem_of_detached hn (e ▸ List.mem_cons_self _ _)
  cases k with
  | top => obtain ⟨s', hs, -⟩ := linkTail_clearIfFirst_eq h.staticListAt hn hnh; exact ⟨s', hs⟩
  | terminated =>
    obtain ⟨s', hs, -⟩ := linkTail_clearIfFirst_eq h.staticListAt hn hnh; exact ⟨s', hs⟩
  | children => obtain ⟨s', hs, -⟩ := linkTail_eq h hn; exact ⟨s', hs⟩
  | ready => obtain ⟨s', hs, -⟩ := ReadyThreadsList.link_eq h.staticListAt hn hnh hf; exact ⟨s', hs⟩
  | waiting => obtain ⟨s', hs, -⟩ := WaitingThreadsList.link_eq h hn hf; exact ⟨s', hs⟩
  | clock => obtain ⟨s', hs, -⟩ := ClockTimestampsList.link_eq h hn hf; exact ⟨s', hs⟩

end ListKind

end MicroOsPlus.Rtos
