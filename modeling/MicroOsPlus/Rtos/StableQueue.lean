import MicroOsPlus.Rtos.Lists

/-!
# Stable priority queues

The three ordered lists are there to serve their nodes in an order: the ready list and the
wait lists the thread of highest priority first, the clock list the earliest timestamp first,
and among equal keys the node linked first. That is a stable priority queue, and this module
states it as one.

## The model

A `Queue` is the abstract queue: the nodes it holds, in no order, and a ghost record of
insertions, the `stamp` of each node's last insertion and the `clock` of insertions so far.
`LinkOrder` is the order of keys a list keeps, `stay x k` when a member of key `x` stays in
front of a node of key `k` being linked; `Before` orders nodes by key and then by stamp, and
`Queue.IsFirst` is the node the queue serves.

`QueueAt o key s hd q xs` is the refinement relation: the list at `hd` holds the members `xs`,
head to tail, which are the nodes of `q`, each `Before` those behind it.

## What is proved

* `linkSpec_of_sorted` — on a list that `QueueAt` holds, `linkSpec`, where each ordered `link`
  puts its node, is insertion right after the last member whose key stays in front of the node's.
* `QueueAt.link`, `QueueAt.erase`, `QueueAt.env` — inserting at that place, removing a member,
  and any change that keeps the list's pointers and its members' keys, keep the relation, with
  the queue's `push`, `erase`, and no change.
* `QueueAt.isFirst` — the head of the list is the node the queue serves.
-/

namespace MicroOsPlus.Rtos

/-- The order of keys an ordered list keeps: `stay x k` when a member of key `x` stays in front
of a node of key `k` being linked. It is total and transitive. -/
structure LinkOrder where
  /-- `stay x k`: the test `link` makes of a member of key `x`, for a node of key `k`. -/
  stay : ℕ → ℕ → Bool
  total : ∀ a b, stay a b = true ∨ stay b a = true
  trans : ∀ {a b c}, stay a b = true → stay b c = true → stay a c = true

namespace LinkOrder

/-- Priorities: the ready and wait lists keep a member in front of a node of no higher
priority, `prio >= node_prio`. -/
def prio : LinkOrder where
  stay x k := decide (k ≤ x)
  total a b := by simp only [decide_eq_true_eq]; omega
  trans h₁ h₂ := by simp only [decide_eq_true_eq] at *; omega

/-- Timestamps: the clock list keeps a member in front of a node of no earlier timestamp,
`timestamp >= after->timestamp`. -/
def time : LinkOrder where
  stay x k := decide (x ≤ k)
  total a b := by simp only [decide_eq_true_eq]; omega
  trans h₁ h₂ := by simp only [decide_eq_true_eq] at *; omega

@[simp] theorem prio_stay (x k : ℕ) : prio.stay x k = decide (k ≤ x) := rfl

@[simp] theorem time_stay (x k : ℕ) : time.stay x k = decide (x ≤ k) := rfl

end LinkOrder

/-- A stable priority queue: the nodes it holds, in no order, the stamp of each node's last
insertion, and the number of insertions so far. -/
structure Queue where
  /-- The nodes held. -/
  items : List Ptr
  /-- When each node was last inserted. -/
  stamp : Ptr → ℕ
  /-- Insertions so far. -/
  clock : ℕ

namespace Queue

/-- The empty queue. -/
def empty : Queue := ⟨[], fun _ => 0, 0⟩

/-- Insert a node, stamped with the number of insertions before it. -/
def push (q : Queue) (n : Ptr) : Queue :=
  ⟨n :: q.items, Function.update q.stamp n q.clock, q.clock + 1⟩

/-- Remove a node. -/
def erase (q : Queue) (x : Ptr) : Queue := { q with items := q.items.erase x }

@[simp] theorem push_items (q : Queue) (n : Ptr) : (q.push n).items = n :: q.items := rfl

@[simp] theorem erase_items (q : Queue) (x : Ptr) : (q.erase x).items = q.items.erase x := rfl

@[simp] theorem erase_stamp (q : Queue) (x : Ptr) : (q.erase x).stamp = q.stamp := rfl

@[simp] theorem erase_clock (q : Queue) (x : Ptr) : (q.erase x).clock = q.clock := rfl

theorem erase_of_not_mem {q : Queue} {x : Ptr} (hx : x ∉ q.items) : q.erase x = q := by
  cases q
  simp [erase, List.erase_of_not_mem hx]

end Queue

variable {o : LinkOrder} {key key' stamp stamp' : Ptr → ℕ}

/-- `a` is served before `b`: its key stays in front of `b`'s, and among equal keys it was
inserted first. -/
def Before (o : LinkOrder) (key stamp : Ptr → ℕ) (a b : Ptr) : Prop :=
  o.stay (key a) (key b) = true ∧ (o.stay (key b) (key a) = true → stamp a < stamp b)

instance (o : LinkOrder) (key stamp : Ptr → ℕ) (a b : Ptr) : Decidable (Before o key stamp a b) :=
  inferInstanceAs (Decidable (_ ∧ _))

theorem Before.congr {a b : Ptr} (h : Before o key stamp a b)
    (ha : key' a = key a ∧ stamp' a = stamp a)
    (hb : key' b = key b ∧ stamp' b = stamp b) : Before o key' stamp' a b := by
  unfold Before at *
  rwa [ha.1, ha.2, hb.1, hb.2]

theorem pairwise_before_congr {l : List Ptr} (h : l.Pairwise (Before o key stamp))
    (hl : ∀ p ∈ l, key' p = key p ∧ stamp' p = stamp p) : l.Pairwise (Before o key' stamp') :=
  h.imp_of_mem fun ha hb hab => hab.congr (hl _ ha) (hl _ hb)

/-- `m` is what the queue serves first: of all its nodes, `m` is served before every other. -/
def Queue.IsFirst (o : LinkOrder) (key : Ptr → ℕ) (q : Queue) (m : Ptr) : Prop :=
  m ∈ q.items ∧ ∀ y ∈ q.items, y ≠ m → Before o key q.stamp m y

/-! ### Stable insertion -/

section Prefix

variable {p : Ptr → Bool}

/-- On a list where `p` holds on a prefix, it fails on all of what `dropWhile` leaves. -/
theorem dropWhile_false_of_prefix : ∀ {xs : List Ptr},
    xs.Pairwise (fun a b => p b = true → p a = true) → ∀ z ∈ xs.dropWhile p, p z = false
  | [], _, z, hz => by simp at hz
  | x :: xs, h, z, hz => by
    rw [List.pairwise_cons] at h
    by_cases hx : p x = true
    · rw [List.dropWhile_cons_of_pos hx] at hz
      exact dropWhile_false_of_prefix h.2 z hz
    · rw [List.dropWhile_cons_of_neg hx] at hz
      rcases List.mem_cons.1 hz with rfl | hz
      · simpa using hx
      · exact Bool.eq_false_iff.2 fun hz' => hx (h.1 z hz hz')

/-- Where `p` holds on a prefix, `linkSplit` cuts right after it, whichever of the three cases of
`link` applies. -/
theorem linkSplit_of_prefix {xs : List Ptr} (h : xs.Pairwise fun a b => p b = true → p a = true) :
    linkSplit p xs = (xs.takeWhile p, xs.dropWhile p) := by
  have hA : ∀ a ∈ xs.takeWhile p, p a = true := fun _ => List.mem_takeWhile_imp
  have hB := dropWhile_false_of_prefix h
  have hxs := List.takeWhile_append_dropWhile p xs
  unfold linkSplit
  split_ifs with hl hh
  · -- the tail stays in front: nothing is left behind
    rcases List.eq_nil_or_concat (xs.dropWhile p) with hB0 | ⟨L, b, hb⟩
    · rw [hB0]
      conv_lhs => rw [← hxs, hB0, List.append_nil]
    · have hlast : xs.getLast? = some b := by rw [← hxs, hb]; simp
      simp [hlast, hB b (by simp [hb])] at hl
  · -- the head stays in front, the tail does not: the nodes behind are `dropWhile p xs`
    have hA' : (xs.takeWhile p).reverse.takeWhile (fun x => !p x) = [] ∧
        (xs.takeWhile p).reverse.dropWhile (fun x => !p x) = (xs.takeWhile p).reverse := by
      cases hr : (xs.takeWhile p).reverse with
      | nil => simp
      | cons a l =>
        have : p a = true := hA a (List.mem_reverse.1 (hr ▸ List.mem_cons_self a l))
        simp [this]
    have hB' : ∀ b ∈ (xs.dropWhile p).reverse, (!p b) = true := fun b hb => by
      simpa using hB b (List.mem_reverse.1 hb)
    simp only [List.rdropWhile, List.rtakeWhile]
    conv_lhs => rw [← hxs, List.reverse_append, List.takeWhile_append_of_pos hB',
      List.dropWhile_append_of_pos hB', hA'.1, hA'.2]
    simp
  · -- the head does not stay in front: nothing stays
    cases xs with
    | nil => simp at hh
    | cons x xs =>
      simp only [List.head?_cons, Option.all_some, Bool.not_eq_true] at hh
      simp [List.takeWhile_cons, List.dropWhile_cons, hh]

end Prefix

/-! ### The refinement relation -/

/-- The list at `hd` in `s` holds the queue `q`: its members `xs`, head to tail, are the nodes of
`q`, each served before those behind it, and stamped before `q`'s clock. -/
structure QueueAt (o : LinkOrder) (key : Ptr → ℕ) (s : State) (hd : Ptr) (q : Queue)
    (xs : List Ptr) : Prop where
  list : StaticListAt s hd xs
  perm : xs.Perm q.items
  sorted : xs.Pairwise (Before o key q.stamp)
  stamped : ∀ x ∈ xs, q.stamp x < q.clock

variable {s s' : State} {hd n : Ptr} {q : Queue} {xs : List Ptr}

namespace QueueAt

theorem init (h : StaticListAt s hd []) (stamp : Ptr → ℕ) (clock : ℕ) :
    QueueAt o key s hd ⟨[], stamp, clock⟩ [] :=
  ⟨h, List.Perm.refl _, List.Pairwise.nil, by simp⟩

theorem stay_prefix (h : QueueAt o key s hd q xs) (k : ℕ) :
    xs.Pairwise fun a b => o.stay (key b) k = true → o.stay (key a) k = true :=
  h.sorted.imp fun hab => o.trans hab.1

/-- **Where the ordered `link`s put a node.** On a list that holds a queue, `linkSpec` inserts the
node right after the last member whose key stays in front of the node's: all the members in front
of it stay in front of its key, none of those behind does. -/
theorem linkSpec_of_sorted (h : QueueAt o key s hd q xs) (n : Ptr) :
    linkSpec (fun x => o.stay (key x) (key n)) n xs =
        xs.takeWhile (fun x => o.stay (key x) (key n)) ++
          n :: xs.dropWhile (fun x => o.stay (key x) (key n)) ∧
      (∀ y ∈ xs.takeWhile (fun x => o.stay (key x) (key n)), o.stay (key y) (key n) = true) ∧
      ∀ z ∈ xs.dropWhile (fun x => o.stay (key x) (key n)), o.stay (key z) (key n) = false := by
  refine ⟨?_, fun _ => List.mem_takeWhile_imp, dropWhile_false_of_prefix (h.stay_prefix _)⟩
  rw [linkSpec, linkSplit_of_prefix (h.stay_prefix _)]

/-- Linking `n` where `linkSpec` puts it inserts `n` into the queue. Keys may change, but not those
of `n` and the members. -/
theorem link (h : QueueAt o key s hd q xs)
    (hs : ListAt s' hd (linkSpec (fun x => o.stay (key x) (key n)) n xs))
    (hkey : ∀ p ∈ n :: xs, key' p = key p) :
    QueueAt o key' s' hd (q.push n) (linkSpec (fun x => o.stay (key x) (key n)) n xs) := by
  obtain ⟨hsplit, hA, hB⟩ := h.linkSpec_of_sorted n
  set A := xs.takeWhile (fun x => o.stay (key x) (key n))
  set B := xs.dropWhile (fun x => o.stay (key x) (key n))
  have hAB : A ++ B = xs := List.takeWhile_append_dropWhile _ xs
  rw [hsplit] at hs ⊢
  have hnx : n ∉ xs := by
    have := (List.nodup_cons.1 hs.nodup).2
    rw [List.nodup_middle, hAB] at this
    exact (List.nodup_cons.1 this).1
  have hst : ∀ p ∈ xs, (q.push n).stamp p = q.stamp p := fun p hp =>
    Function.update_noteq (fun (e : p = n) => hnx (e ▸ hp)) _ _
  have hold : (A ++ B).Pairwise (Before o key' (q.push n).stamp) :=
    pairwise_before_congr (hAB ▸ h.sorted) fun p hp =>
      ⟨hkey p (List.mem_cons_of_mem _ (hAB ▸ hp)), hst p (hAB ▸ hp)⟩
  have hkn : key' n = key n := hkey n (List.mem_cons_self _ _)
  have hstn : (q.push n).stamp n = q.clock := Function.update_same _ _ _
  refine ⟨hs.staticListAt, ?_, ?_, ?_⟩
  · exact List.perm_middle.trans (List.Perm.cons n (hAB.symm ▸ h.perm))
  · rw [List.pairwise_append] at hold ⊢
    refine ⟨hold.1, List.pairwise_cons.2 ⟨fun b hb => ?_, hold.2.1⟩, fun a ha b hb => ?_⟩
    · -- `n` is served before every node behind it
      have hb' : b ∈ xs := hAB ▸ List.mem_append_right _ hb
      have hkb := hkey b (List.mem_cons_of_mem _ hb')
      refine ⟨?_, fun hbn => ?_⟩
      · rw [hkn, hkb]
        exact (o.total _ _).resolve_left (by simp [hB b hb])
      · rw [hkn, hkb, hB b hb] at hbn
        exact absurd hbn Bool.false_ne_true
    · rcases List.mem_cons.1 hb with rfl | hb
      · -- every node in front is served before `n`
        have ha' : a ∈ xs := hAB ▸ List.mem_append_left _ ha
        refine ⟨by rw [hkn, hkey a (List.mem_cons_of_mem _ ha')]; exact hA a ha, fun _ => ?_⟩
        rw [hst a ha', hstn]
        exact h.stamped a ha'
      · exact hold.2.2 a ha b hb
  · intro x hx
    rcases List.mem_append.1 hx with hx | hx
    · rw [hst x (hAB ▸ List.mem_append_left _ hx)]
      exact Nat.lt_succ_of_lt (h.stamped x (hAB ▸ List.mem_append_left _ hx))
    · rcases List.mem_cons.1 hx with rfl | hx
      · rw [hstn]; exact Nat.lt_succ_self _
      · rw [hst x (hAB ▸ List.mem_append_right _ hx)]
        exact Nat.lt_succ_of_lt (h.stamped x (hAB ▸ List.mem_append_right _ hx))

/-- Removing a member removes it from the queue. -/
theorem erase {x : Ptr} (h : QueueAt o key s hd q xs) (hs : ListAt s' hd (xs.erase x))
    (hkey : ∀ p ∈ xs.erase x, key' p = key p) :
    QueueAt o key' s' hd (q.erase x) (xs.erase x) :=
  ⟨hs.staticListAt, h.perm.erase x,
    pairwise_before_congr (h.sorted.sublist (List.erase_sublist x xs)) fun p hp => ⟨hkey p hp, rfl⟩,
    fun p hp => h.stamped p ((List.erase_sublist x xs).subset hp)⟩

theorem listAt_of_mem {x : Ptr} (h : QueueAt o key s hd q xs) (hx : x ∈ xs) : ListAt s hd xs :=
  h.list.resolve_right fun hz => by simp [hz.2] at hx

/-- `unlink()` of a member removes it from the queue. -/
theorem unlink {x : Ptr} (h : QueueAt o key s hd q xs) (hx : x ∈ q.items)
    (hs : Rtos.unlink x s = some s') (hkey : ∀ p ∈ xs, key' p = key p) :
    QueueAt o key' s' hd (q.erase x) (xs.erase x) := by
  have hx' : x ∈ xs := h.perm.mem_iff.2 hx
  obtain ⟨ys, zs, rfl⟩ := List.append_of_mem hx'
  obtain ⟨s'', hs'', hl, -⟩ := (h.listAt_of_mem hx').erase
  have hxy : x ∉ ys := fun hm => by
    have := (List.nodup_cons.1 (h.listAt_of_mem hx').nodup).2
    exact (List.nodup_append.1 this).2.2 hm (List.mem_cons_self x zs)
  have he : (ys ++ x :: zs).erase x = ys ++ zs := by
    rw [List.erase_append_right _ hxy, List.erase_cons_head]
  rw [hs'', Option.some.injEq] at hs
  subst hs
  exact h.erase (he ▸ hl) fun p hp => hkey p ((List.erase_sublist x _).subset hp)

/-- A change that keeps the pointers of the header and the members, and the members' keys, keeps
the queue. -/
theorem env (h : QueueAt o key s hd q xs) (hs : LinksAgreeOn (hd :: xs) s s')
    (hkey : ∀ p ∈ xs, key' p = key p) : QueueAt o key' s' hd q xs := by
  refine ⟨?_, h.perm, pairwise_before_congr h.sorted fun p hp => ⟨hkey p hp, rfl⟩, h.stamped⟩
  rcases h.list with hl | ⟨hz, rfl⟩
  · exact (hl.agreeOn hs).staticListAt
  · obtain ⟨e₁, e₂⟩ := hs hd (List.mem_cons_self _ _)
    exact Or.inr ⟨⟨e₂.trans hz.1, e₁.trans hz.2⟩, rfl⟩

theorem stay_head {x y : Ptr} (h : QueueAt o key s hd q (x :: xs)) (hy : y ∈ xs) :
    o.stay (key x) (key y) = true :=
  (List.rel_of_pairwise_cons h.sorted hy).1

/-- **The head is served first.** -/
theorem isFirst {x : Ptr} (h : QueueAt o key s hd q (x :: xs)) : q.IsFirst o key x := by
  refine ⟨h.perm.subset (List.mem_cons_self _ _), fun y hy hyx => ?_⟩
  exact List.rel_of_pairwise_cons h.sorted
    ((List.mem_cons.1 (h.perm.mem_iff.2 hy)).resolve_left hyx)

end QueueAt

end MicroOsPlus.Rtos
