import Mathlib.Data.List.Chain

/-!
# Intrusive links

The lists of the µOS++ scheduler (`os-lists.cpp`) are intrusive: every record that can be
queued embeds a `static_double_list_links` node, two pointers `prev` and `next`, and every list
embeds one more such node, its header `head_`. A list does not own its nodes; it only rewrites
their pointers.

## The model

Nodes are addresses `Ptr`; `nullptr` is `none`. A `State` holds the two pointers of every node
as functions of its address, so that one state holds every list of the system at once and a
node of one list is a node of the heap as any other. Beside the links the state holds what the
list code reads or writes of the records around its nodes: a thread's scheduler state and
priorities, a timestamp node's time. Every read of a pointer that the code dereferences goes
through an `Option`: dereferencing `nullptr` ends the run (`none`), and so does a failed
`assert`, as in a debug build.

`static_double_list_links::unlink`, `static_double_list::clear` and
`static_double_list::insert_after` are translated statement by statement. `empty()`, `head()`
and `tail()` are inline members of the lists' header file, which is not among the sources; they
are modelled from the spec ("`empty()`: true iff `header.next` is absent or equals `&header`";
"`head()`: returns `header.next`"; "`tail()`: returns `header.prev`").
-/

namespace MicroOsPlus.Rtos

/-- The address of a node: of a `static_double_list_links`, or of the record it is embedded in. -/
abbrev Ptr := ℕ

/-- Modelled from the spec: `thread::state` is declared with the thread class, which is not among
the sources; the spec names the values the lists use, "`{ready, running, waiting, terminated,
destroyed}`". -/
inductive ThreadState where
  | ready
  | running
  | waiting
  | terminated
  | destroyed
  deriving DecidableEq, Repr

/-- What the list code reads and writes: the links of every node, and the fields of threads and
timestamp nodes it touches. -/
structure State where
  /-- `static_double_list_links::prev` of the node at each address. -/
  prev : Ptr → Option Ptr
  /-- `static_double_list_links::next` of the node at each address. -/
  next : Ptr → Option Ptr
  /-- `thread::sched_state_` of the thread at each address. -/
  schedState : Ptr → ThreadState
  /-- `thread::prio_`, the priority the ready list reads. -/
  prio : Ptr → ℕ
  /-- What `thread::sched_prio()` returns, the priority the wait lists read. -/
  schedPrio : Ptr → ℕ
  /-- `timestamp_node::timestamp`. -/
  timestamp : Ptr → ℕ

namespace State

/-- Write the `next` pointer of node `p`. -/
def setNext (s : State) (p : Ptr) (v : Option Ptr) : State :=
  { s with next := fun q => if q = p then v else s.next q }

/-- Write the `prev` pointer of node `p`. -/
def setPrev (s : State) (p : Ptr) (v : Option Ptr) : State :=
  { s with prev := fun q => if q = p then v else s.prev q }

/-- Write the scheduler state of thread `t`. -/
def setSchedState (s : State) (t : Ptr) (v : ThreadState) : State :=
  { s with schedState := fun u => if u = t then v else s.schedState u }

variable (s : State) (p q : Ptr) (v : Option Ptr)

@[simp] theorem next_setNext : (s.setNext p v).next q = if q = p then v else s.next q := rfl
@[simp] theorem prev_setNext : (s.setNext p v).prev = s.prev := rfl
@[simp] theorem prev_setPrev : (s.setPrev p v).prev q = if q = p then v else s.prev q := rfl
@[simp] theorem next_setPrev : (s.setPrev p v).next = s.next := rfl
@[simp] theorem schedState_setNext : (s.setNext p v).schedState = s.schedState := rfl
@[simp] theorem schedState_setPrev : (s.setPrev p v).schedState = s.schedState := rfl
@[simp] theorem prio_setNext : (s.setNext p v).prio = s.prio := rfl
@[simp] theorem prio_setPrev : (s.setPrev p v).prio = s.prio := rfl
@[simp] theorem schedPrio_setNext : (s.setNext p v).schedPrio = s.schedPrio := rfl
@[simp] theorem schedPrio_setPrev : (s.setPrev p v).schedPrio = s.schedPrio := rfl
@[simp] theorem timestamp_setNext : (s.setNext p v).timestamp = s.timestamp := rfl
@[simp] theorem timestamp_setPrev : (s.setPrev p v).timestamp = s.timestamp := rfl

@[simp] theorem schedState_setSchedState (t u : Ptr) (w : ThreadState) :
    (s.setSchedState t w).schedState u = if u = t then w else s.schedState u := rfl
@[simp] theorem next_setSchedState (t : Ptr) (w : ThreadState) :
    (s.setSchedState t w).next = s.next := rfl
@[simp] theorem prev_setSchedState (t : Ptr) (w : ThreadState) :
    (s.setSchedState t w).prev = s.prev := rfl
@[simp] theorem prio_setSchedState (t : Ptr) (w : ThreadState) :
    (s.setSchedState t w).prio = s.prio := rfl
@[simp] theorem schedPrio_setSchedState (t : Ptr) (w : ThreadState) :
    (s.setSchedState t w).schedPrio = s.schedPrio := rfl
@[simp] theorem timestamp_setSchedState (t : Ptr) (w : ThreadState) :
    (s.setSchedState t w).timestamp = s.timestamp := rfl

/-- What a state holds besides the links. -/
def data (s : State) : (Ptr → ThreadState) × (Ptr → ℕ) × (Ptr → ℕ) × (Ptr → ℕ) :=
  (s.schedState, s.prio, s.schedPrio, s.timestamp)

@[simp] theorem data_setNext : (s.setNext p v).data = s.data := rfl
@[simp] theorem data_setPrev : (s.setPrev p v).data = s.data := rfl

theorem data_eq_iff {s s' : State} : s'.data = s.data ↔ s'.schedState = s.schedState ∧
    s'.prio = s.prio ∧ s'.schedPrio = s.schedPrio ∧ s'.timestamp = s.timestamp := by
  simp [data]

theorem data_setSchedState {s s' : State} (h : s'.data = s.data) (t : Ptr) (w : ThreadState) :
    (s'.setSchedState t w).data = (s.setSchedState t w).data := by
  simp only [data_eq_iff] at h ⊢
  simp [setSchedState, h]

end State

/-- A node out of every list: both pointers `nullptr`, as BSS initialisation leaves it and as
`unlink` leaves it. -/
def Detached (s : State) (p : Ptr) : Prop := s.prev p = none ∧ s.next p = none

instance (s : State) (p : Ptr) : Decidable (Detached s p) := inferInstanceAs (Decidable (_ ∧ _))

/-- `static_double_list_links::unlink`: make the neighbours point to each other, then nullify
both pointers. A node whose `next` is already `nullptr` is left alone (its `prev` is asserted to
be `nullptr` too). -/
def unlink (n : Ptr) (s : State) : Option State :=
  match s.next n with
  | none => if s.prev n = none then some s else none
  | some nx =>
    match s.prev n with
    | none => none
    | some pv =>
      some ((((s.setNext pv (some nx)).setPrev nx (some pv)).setPrev n none).setNext n none)

/-- `static_double_list::clear`: the header links to itself. -/
def clear (hd : Ptr) (s : State) : State := (s.setNext hd (some hd)).setPrev hd (some hd)

/-- `static_double_list::insert_after`: splice `node` between `after` and `after->next`, after
asserting that `node` is detached and `after->next` is not `nullptr`. -/
def insertAfter (node after : Ptr) (s : State) : Option State :=
  if Detached s node then
    match s.next after with
    | none => none
    | some nx =>
      some ((((s.setPrev node (some after)).setNext node (some nx)).setPrev nx (some node)).setNext
        after (some node))
  else none

/-- Modelled from the spec: `static_double_list::empty()`, "true iff `header.next` is absent or
equals `&header`". -/
def empty (s : State) (hd : Ptr) : Bool :=
  match s.next hd with
  | none => true
  | some p => p = hd

/-- Modelled from the spec: `static_double_list::head()`, "returns `header.next`". -/
def head (s : State) (hd : Ptr) : Option Ptr := s.next hd

/-- Modelled from the spec: `static_double_list::tail()`, "returns `header.prev`". -/
def tail (s : State) (hd : Ptr) : Option Ptr := s.prev hd

/-! ### What the primitives do -/

@[simp] theorem next_clear (hd : Ptr) (s : State) (q : Ptr) :
    (clear hd s).next q = if q = hd then some hd else s.next q := rfl

@[simp] theorem prev_clear (hd : Ptr) (s : State) (q : Ptr) :
    (clear hd s).prev q = if q = hd then some hd else s.prev q := rfl

/-- Unlinking a detached node is a no-op. -/
theorem unlink_detached {s : State} {n : Ptr} (h : Detached s n) : unlink n s = some s := by
  simp [unlink, h.1, h.2]

/-- Unlinking a linked node: the neighbours are joined and the node is detached. -/
theorem unlink_linked {s : State} {n pv nx : Ptr} (hp : s.prev n = some pv)
    (hn : s.next n = some nx) :
    unlink n s =
      some ((((s.setNext pv (some nx)).setPrev nx (some pv)).setPrev n none).setNext n none) := by
  simp [unlink, hp, hn]

theorem insertAfter_eq {s : State} {node after nx : Ptr} (hd : Detached s node)
    (ha : s.next after = some nx) :
    insertAfter node after s =
      some ((((s.setPrev node (some after)).setNext node (some nx)).setPrev nx (some node)).setNext
        after (some node)) := by
  simp [insertAfter, hd, ha]

theorem unlink_data {s s' : State} {n : Ptr} (h : unlink n s = some s') : s'.data = s.data := by
  unfold unlink at h
  split at h
  · split_ifs at h; cases h; rfl
  · split at h
    · cases h
    · cases h; simp

theorem insertAfter_data {s s' : State} {node after : Ptr}
    (h : insertAfter node after s = some s') :
    s'.data = s.data := by
  unfold insertAfter at h
  split_ifs at h
  split at h
  · cases h
  · cases h; simp

/-- `insert_after` asserts that the node is detached. -/
theorem insertAfter_detached {s s' : State} {node after : Ptr}
    (h : insertAfter node after s = some s') : Detached s node := by
  by_contra hd
  simp [insertAfter, hd] at h

@[simp] theorem data_clear (hd : Ptr) (s : State) : (clear hd s).data = s.data := rfl

/-- Outside the nodes `ws`, the links of `s'` are those of `s`: what an operation that writes
only the pointers of `ws` leaves behind. -/
def LinksAgreeOff (ws : List Ptr) (s s' : State) : Prop :=
  ∀ p, p ∉ ws → s'.next p = s.next p ∧ s'.prev p = s.prev p

theorem LinksAgreeOff.refl (ws : List Ptr) (s : State) : LinksAgreeOff ws s s :=
  fun _ _ => ⟨rfl, rfl⟩

theorem LinksAgreeOff.trans {ws : List Ptr} {s t u : State} (h₁ : LinksAgreeOff ws s t)
    (h₂ : LinksAgreeOff ws t u) : LinksAgreeOff ws s u :=
  fun p hp => ⟨(h₂ p hp).1.trans (h₁ p hp).1, (h₂ p hp).2.trans (h₁ p hp).2⟩

theorem LinksAgreeOff.mono {ws ws' : List Ptr} {s s' : State} (h : LinksAgreeOff ws s s')
    (hw : ∀ p ∈ ws, p ∈ ws') : LinksAgreeOff ws' s s' :=
  fun p hp => h p fun hm => hp (hw p hm)

/-- On the nodes `ws`, the links of `s'` are those of `s`: what an operation that keeps away from
a list leaves of it. -/
def LinksAgreeOn (ws : List Ptr) (s s' : State) : Prop :=
  ∀ p ∈ ws, s'.next p = s.next p ∧ s'.prev p = s.prev p

theorem LinksAgreeOn.mono {ws ws' : List Ptr} {s s' : State} (h : LinksAgreeOn ws s s')
    (hw : ∀ p ∈ ws', p ∈ ws) : LinksAgreeOn ws' s s' :=
  fun p hp => h p (hw p hp)

/-- A detached node the operation does not write stays detached. -/
theorem LinksAgreeOff.detached {ws : List Ptr} {s s' : State} {p : Ptr} (h : LinksAgreeOff ws s s')
    (hp : Detached s p) (hpw : p ∉ ws) : Detached s' p :=
  ⟨(h p hpw).2.trans hp.1, (h p hpw).1.trans hp.2⟩

theorem LinksAgreeOn.detached {ws : List Ptr} {s s' : State} {p : Ptr} (h : LinksAgreeOn ws s s')
    (hp : Detached s p) (hpw : p ∈ ws) : Detached s' p :=
  ⟨(h p hpw).2.trans hp.1, (h p hpw).1.trans hp.2⟩

theorem unlink_agreeOff {s s' : State} {n pv nx : Ptr} (hp : s.prev n = some pv)
    (hn : s.next n = some nx) (h : unlink n s = some s') : LinksAgreeOff [n, pv, nx] s s' := by
  rw [unlink_linked hp hn, Option.some.injEq] at h
  subst h
  intro p hp
  simp only [List.mem_cons, List.mem_singleton, not_or, List.not_mem_nil] at hp
  simp [hp.1, hp.2.1, hp.2.2.1]

theorem insertAfter_agreeOff {s s' : State} {node after nx : Ptr} (ha : s.next after = some nx)
    (h : insertAfter node after s = some s') : LinksAgreeOff [node, after, nx] s s' := by
  by_cases hd : Detached s node
  · rw [insertAfter_eq hd ha, Option.some.injEq] at h
    subst h
    intro p hp
    simp only [List.mem_cons, List.mem_singleton, not_or, List.not_mem_nil] at hp
    simp [hp.1, hp.2.1, hp.2.2.1]
  · simp [insertAfter, hd] at h

end MicroOsPlus.Rtos
