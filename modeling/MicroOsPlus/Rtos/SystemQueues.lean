import MicroOsPlus.Rtos.System
import MicroOsPlus.Rtos.PriorityLists
import MicroOsPlus.Rtos.AppendLists

/-!
# Every list of the system is a queue

`PriorityLists`, `Clock` and `AppendLists` carry, beside one list, the queue it holds through a
run of its own operations and of steps of the rest of the system that keep its pointers and its
members' keys. This module carries the queues of all the lists at once through the runs of the
system of `System`, where a node leaves one list for another and the loops' callbacks link and
unlink nodes of other lists.

## The model

`QueueStep` is a primitive operation of the system with, beside the state, the queue of each
list, a function of its header: a class's `link (n)` pushes `n` on the queue of its list, stamped
with that queue's count of insertions; `unlink ()` of a node and `unlink_head ()` take the node
off the queues; a change of the records leaves them alone. The queues are ghost state: the
operations write them and no operation reads them. `ListKind.order` and `ListKind.key` are the
order each class keeps and the key its `link` reads: for the ready list `prio_` and for the wait
lists `sched_prio ()`, highest first; for the clock list the timestamp, earliest first; for the
appending lists nothing, so that only the order of linking counts. `KeyStable` is the changes of
the records allowed: those that keep the key of every member of every list.

## What is proved

* `ListKind.link_linkSpec` — every class's `link` puts the node where `linkSpec` says, for the
  class's order and key.
* `queueAt_queueStep` — each primitive operation keeps every list holding its queue: on its own
  list it pushes or erases, on the others it changes nothing.
* `SysInv.queueStep`, `SysInv.queueRun` — every primitive operation, and every run of them, moves
  the queues along: the system's loops and their callbacks, being runs of primitive operations,
  do too.
* `system_queues` — from lists freshly made, every other node detached, and empty queues, in
  every state a run reaches every list holds its queue, in its class's order and, among equal
  keys, in the order of the run's `link`s; and every run of the system is such a run.
-/

namespace MicroOsPlus.Rtos

open Relation

namespace ListKind

/-- The order each class keeps. -/
def order : ListKind → LinkOrder
  | ready | waiting => LinkOrder.prio
  | clock => LinkOrder.time
  | top | children | terminated => LinkOrder.fifo

/-- The key each class's `link` reads of a node. -/
def key (thr : Ptr → Ptr) (s : State) : ListKind → Ptr → ℕ
  | ready => readyKey thr s
  | waiting => waitKey thr s
  | clock => s.timestamp
  | top | children | terminated => noKey

variable {thr : Ptr → Ptr} {s s' : State} {hd n : Ptr} {xs : List Ptr} {fuel : ℕ}

/-- The keys read only the priorities and the timestamps. -/
theorem key_congr (k : ListKind)
    (h : s'.prio = s.prio ∧ s'.schedPrio = s.schedPrio ∧ s'.timestamp = s.timestamp) :
    k.key thr s' = k.key thr s := by
  obtain ⟨hp, hsp, ht⟩ := h
  funext p
  cases k <;> simp [key, readyKey, waitKey, hp, hsp, ht]

theorem key_of_data (k : ListKind) (h : s'.data = s.data) : k.key thr s' = k.key thr s :=
  k.key_congr (State.data_eq_iff.1 h).2

theorem key_link (k k' : ListKind) (h : StaticListAt s hd xs)
    (hs : k.link thr fuel hd n s = some s') : k'.key thr s' = k'.key thr s := by
  obtain ⟨-, -, -, -, -, hdata⟩ := k.link_spec h hs
  have hkeys := (State.data_eq_iff.1 hdata).2
  split_ifs at hkeys
  · exact k'.key_congr (by simpa using hkeys)
  · exact k'.key_congr hkeys

/-- **Where every `link` puts its node.** Each class's `link` puts the node where `linkSpec`
says, for the class's order and key. -/
theorem link_linkSpec (k : ListKind) (h : StaticListAt s hd xs)
    (hs : k.link thr fuel hd n s = some s') :
    ListAt s' hd (linkSpec (fun x => k.order.stay (k.key thr s x) (k.key thr s n)) n xs) := by
  cases k with
  | ready => exact (ReadyThreadsList.link_some h hs).1
  | waiting => exact (WaitingThreadsList.link_some h hs).1
  | clock => exact (ClockTimestampsList.link_some h hs).1
  | top | children | terminated =>
    have hl := (link_append _ (by rfl) h hs).1
    rw [← linkSpec_fifo noKey n xs] at hl
    exact hl

end ListKind

variable {thr : Ptr → Ptr} {L : List (ListKind × Ptr)} {cont : Ptr → List Ptr} {s s' : State}
  {hd : Ptr} {Q Q' : Ptr → Queue}

/-- The changes of the records allowed: those that keep the key of every member of every list,
the key its list reads. -/
def KeyStable (thr : Ptr → Ptr) (L : List (ListKind × Ptr)) (s s' : State) : Prop :=
  ∀ cont, SysInv L s cont → ∀ k hd, (k, hd) ∈ L → ∀ p ∈ cont hd, k.key thr s' p = k.key thr s p

/-- A primitive operation of the system, with the queues of its lists beside the state. -/
inductive QueueStep (thr : Ptr → Ptr) (L : List (ListKind × Ptr)) :
    State × (Ptr → Queue) → State × (Ptr → Queue) → Prop
  /-- A class's `link (n)` of a detached node that is no header pushes `n` on its list's queue. -/
  | link {s s' : State} {Q : Ptr → Queue} {k : ListKind} {hd n : Ptr} {fuel : ℕ} :
      (k, hd) ∈ L → n ∉ L.map Prod.snd → Detached s n → k.link thr fuel hd n s = some s' →
      QueueStep thr L (s, Q) (s', Function.update Q hd ((Q hd).push n))
  /-- `unlink ()` of a node that is no header takes it off the queues. -/
  | unlink {s s' : State} {Q : Ptr → Queue} {x : Ptr} :
      x ∉ L.map Prod.snd → unlink x s = some s' →
      QueueStep thr L (s, Q) (s', fun hd => (Q hd).erase x)
  /-- `ready_threads_list::unlink_head ()` takes the head off the queues. -/
  | unlinkHead {s s' : State} {Q : Ptr → Queue} {hd x t : Ptr} :
      (.ready, hd) ∈ L → head s hd = some x →
      ReadyThreadsList.unlinkHead thr hd s = some (s', t) →
      QueueStep thr L (s, Q) (s', fun hd => (Q hd).erase x)
  /-- A change of the records that keeps every pointer and the key of every member. -/
  | records {s s' : State} {Q : Ptr → Queue} :
      s'.next = s.next → s'.prev = s.prev → KeyStable thr L s s' → QueueStep thr L (s, Q) (s', Q)

/-- Without the queues, a `QueueStep` is a primitive operation. -/
theorem QueueStep.primStep (hst : QueueStep thr L (s, Q) (s', Q')) :
    PrimStep thr L (KeyStable thr L) s s' := by
  cases hst with
  | link hk hnH hn hs => exact .link hk hnH hn hs
  | unlink hxH hs => exact .unlink hxH hs
  | unlinkHead hk _ hs => exact .unlinkHead hk hs
  | records hn hp hR => exact .records hn hp hR

/-- **Each operation keeps each list's queue.** -/
theorem queueAt_queueStep (h : SysInv L s cont) (hst : QueueStep thr L (s, Q) (s', Q'))
    {k : ListKind} (hk : (k, hd) ∈ L) (hq : QueueAt k.order (k.key thr s) s hd (Q hd) (cont hd)) :
    ∃ xs', QueueAt k.order (k.key thr s') s' hd (Q' hd) xs' := by
  have hdH : hd ∈ L.map Prod.snd := List.mem_map_of_mem Prod.snd hk
  -- a node of no member's list leaves this queue as it is
  have hkeep : ∀ {x}, x ∉ cont hd → (Q hd).erase x = Q hd := fun hx =>
    Queue.erase_of_not_mem fun hm => hx (hq.perm.mem_iff.2 hm)
  cases hst with
  | @link _ _ _ k₁ hd₁ n _ hk₁ hnH hn hs =>
    have hkey := ListKind.key_link k₁ k (h.staticListAt hk₁) hs
    by_cases e : hd₁ = hd
    · -- a `link` on this list pushes the node
      subst e
      obtain rfl := h.kind_unique hk₁ hk
      rw [Function.update_same]
      exact ⟨_, hq.link (k₁.link_linkSpec (h.staticListAt hk₁) hs) fun p _ => congrFun hkey p⟩
    · obtain ⟨-, -, -, -, hag, -⟩ := k₁.link_spec (h.staticListAt hk₁) hs
      have hnew : ∀ p ∈ [n], ∀ hd' ∈ L.map Prod.snd, p ∉ hd' :: cont hd' := fun p hp =>
        List.mem_singleton.1 hp ▸ h.not_mem_of_detached hn hnH
      rw [Function.update_noteq (Ne.symm e)]
      exact ⟨_, hq.env (h.agreeOn_other hdH (List.mem_map_of_mem Prod.snd hk₁) e hnew hag)
        fun p _ => congrFun hkey p⟩
  | @unlink _ _ _ x hxH hs =>
    have hkey : k.key thr s' = k.key thr s := k.key_of_data (unlink_data hs)
    by_cases hx : x ∈ cont hd
    · exact ⟨_, hq.unlink (hq.perm.subset hx) hs fun p _ => congrFun hkey p⟩
    · dsimp only
      rw [hkeep hx]
      exact ⟨_, hq.env (h.unlink_agreeOn hk hxH hx hs) fun p _ => congrFun hkey p⟩
  | @unlinkHead _ _ _ hd₁ x t hk₁ hx hs =>
    obtain ⟨y, ys, hc, hy, hl, -, hag, hdata⟩ := h.unlinkHead_cases hk₁ hs
    obtain rfl : x = y := Option.some.inj (hx.symm.trans hy)
    have hkey : k.key thr s' = k.key thr s :=
      k.key_congr (by simpa using (State.data_eq_iff.1 hdata).2)
    by_cases e : hd₁ = hd
    · -- `unlink_head` on this list erases its head
      subst e
      rw [hc] at hq
      exact ⟨_, hq.erase (x := x) (by simpa using hl) fun p _ => congrFun hkey p⟩
    · have hx' : x ∉ cont hd := fun hm => h.not_mem_other (List.mem_map_of_mem Prod.snd hk₁) hdH
        (Ne.symm e) (by simp [hc]) (List.mem_cons_of_mem _ hm)
      dsimp only
      rw [hkeep hx']
      exact ⟨_, hq.env (h.agreeOn_other hdH (List.mem_map_of_mem Prod.snd hk₁) e (e := [])
        (by simp) (by simpa [hc] using hag)) fun p _ => congrFun hkey p⟩
  | records hn hp hR =>
    exact ⟨_, hq.env (fun p _ => ⟨congrFun hn p, congrFun hp p⟩) (hR cont h k hd hk)⟩

/-- Every list of the system holds its queue. -/
def QueuesAt (thr : Ptr → Ptr) (L : List (ListKind × Ptr)) (s : State) (Q : Ptr → Queue)
    (cont : Ptr → List Ptr) : Prop :=
  ∀ k hd, (k, hd) ∈ L → QueueAt k.order (k.key thr s) s hd (Q hd) (cont hd)

theorem queuesAt_queueStep (h : SysInv L s cont) (hq : QueuesAt thr L s Q cont)
    (hst : QueueStep thr L (s, Q) (s', Q')) : ∃ cont', SysInv L s' cont' ∧ QueuesAt thr L s' Q' cont' := by
  obtain ⟨cont', h'⟩ := h.primStep hst.primStep
  refine ⟨cont', h', fun k hd hk => ?_⟩
  obtain ⟨xs', hq'⟩ := queueAt_queueStep h hst hk (hq k hd hk)
  exact hq'.list.unique (h'.staticListAt hk) ▸ hq'

namespace SysInv

theorem queueStep (h : SysInv L s cont) (hst : PrimStep thr L (KeyStable thr L) s s')
    (Q : Ptr → Queue) : ∃ Q', QueueStep thr L (s, Q) (s', Q') := by
  cases hst with
  | link hk hnH hn hs => exact ⟨_, .link hk hnH hn hs⟩
  | unlink hxH hs => exact ⟨_, .unlink hxH hs⟩
  | @unlinkHead hd t hk hs =>
    obtain ⟨x, -, -, hx, -⟩ := h.unlinkHead_cases hk hs
    exact ⟨_, .unlinkHead hk hx hs⟩
  | records hn hp hR => exact ⟨_, .records hn hp hR⟩

theorem queueRun (h : SysInv L s cont) (hrun : ReflTransGen (PrimStep thr L (KeyStable thr L)) s s')
    (Q : Ptr → Queue) : ∃ Q', ReflTransGen (QueueStep thr L) (s, Q) (s', Q') :=
  (run_invariant (fun b => ∃ Q', ReflTransGen (QueueStep thr L) (s, Q) (b, Q') ∧
      ∃ cont, SysInv L b cont)
    (fun hst ⟨Q₁, hrun₁, _, h₁⟩ => (h₁.queueStep hst Q₁).imp fun _ hst₁ =>
      ⟨hrun₁.tail hst₁, h₁.primStep hst⟩)
    hrun ⟨Q, .refl, _, h⟩).imp fun _ h => h.1

end SysInv

/-- **Every list of the system is a stable queue.** From lists freshly made, every other node
detached, and empty queues, in every state a run of primitive operations reaches, where each
`link` pushes its node on its list's queue and each `unlink ()` and `unlink_head ()` takes its
node off, every list holds its queue: the ready list and the wait lists by priority, highest
first, the clock lists by timestamp, earliest first, the appending lists in no order of keys, and
among equal keys in the order of the run's `link`s. Every run of the system, its loops and their
callbacks included, is such a run, as long as no change of the records touches the key of a
member of a list. -/
theorem system_queues (thr : Ptr → Ptr) {L : List (ListKind × Ptr)} {s₀ : State}
    (h₀ : Init L s₀) :
    (∀ {c : State × (Ptr → Queue)},
      ReflTransGen (QueueStep thr L) (s₀, fun _ => Queue.empty) c →
      ∃ cont, SysInv L c.1 cont ∧
        ∀ k hd, (k, hd) ∈ L → QueueAt k.order (k.key thr c.1) c.1 hd (c.2 hd) (cont hd)) ∧
    ∀ {s : State}, ReflTransGen (SysStep thr L (KeyStable thr L)) s₀ s →
      ∃ Q, ReflTransGen (QueueStep thr L) (s₀, fun _ => Queue.empty) (s, Q) := by
  refine ⟨fun hrun => run_invariant (fun c => ∃ cont, SysInv L c.1 cont ∧ QueuesAt thr L c.1 c.2 cont)
    (fun hst ⟨_, h, hq⟩ => queuesAt_queueStep h hq hst) hrun
    ⟨_, h₀.sysInv, fun k hd hk => QueueAt.init (h₀.sysInv.staticListAt hk) _ _⟩, fun hrun => ?_⟩
  -- every step of the system is a run of primitive operations, each with its `QueueStep`
  refine (run_invariant (fun s => ∃ Q, ReflTransGen (QueueStep thr L) (s₀, fun _ => Queue.empty)
      (s, Q) ∧ ∃ cont, SysInv L s cont)
    (fun hst ⟨Q₁, hrun₁, _, h₁⟩ => (h₁.queueRun (hst.primRun h₁) Q₁).imp fun _ hrun₂ =>
      ⟨hrun₁.trans hrun₂, h₁.sysStep hst⟩)
    hrun ⟨_, .refl, _, h₀.sysInv⟩).imp fun _ h => h.1

/-- A wait list cleared at `0` and a ready list whose header `9` is still zero: node `1` waits,
then node `2` is made ready; each list holds its queue. -/
theorem system_queues_start :
    ∃ c, ReflTransGen (QueueStep id [(.waiting, 0), (.ready, 9)])
        (ringState 0 [], fun _ => Queue.empty) c ∧
      ∃ cont, SysInv [(.waiting, 0), (.ready, 9)] c.1 cont ∧
        ∀ k hd, (k, hd) ∈ [(ListKind.waiting, 0), (ListKind.ready, 9)] →
          QueueAt k.order (k.key id c.1) c.1 hd (c.2 hd) (cont hd) := by
  have hrun := (ReflTransGen.single (r := QueueStep id [(.waiting, 0), (.ready, 9)])
    (.link (Q := fun _ => Queue.empty) (by decide) (by decide) (by decide)
      (show ListKind.waiting.link id 0 0 1 (ringState 0 []) = some _ from rfl))).tail
    (.link (by decide) (by decide) (by decide)
      (show ListKind.ready.link id 0 9 2 _ = some _ from rfl))
  exact ⟨_, hrun, (system_queues id Init.waiting_ready).1 hrun⟩

end MicroOsPlus.Rtos
