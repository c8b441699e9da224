import MicroOsPlus.Rtos.PriorityLists

/-!
# The clock list and `check_timestamp`

The clock list is a stable priority queue by timestamp, and `check_timestamp (now)` serves it:
while the head's timestamp is not after `now`, it runs the head's `action ()`. An action unlinks
its own node and may link it again at a later timestamp, as a periodic timer does; the loop then
reads the head again.

## The model

`ActionOk` is the contract of the actions, as the spec states it: run on the head `x` of the
list, an action returns, and what it does is unlink `x`, then either keep the rest of the list
and leave `x` detached, or keep the rest of the list, give `x` a later timestamp, `link (x)` and
keep the list. `timeout_thread_node::action` and `timer_node::action` unlink their node and then
run a routine (`thread::resume`, the timer's routine); `actionOk_of_routineOk` turns the routine's
contract `RoutineOk` into `ActionOk`. A one-shot routine (`OneShot`) keeps the list and leaves the
node detached, as `thread::resume` must for `timeout_thread_node::action`
(`TimeoutThreadNode.actionOk`); `TimerNode.periodic` links its node again one period later
(`TimerNode.periodic_routineOk`).

`checkLoopQ` runs `check_timestamp`'s loop beside the abstract queue the list holds, as ghost
code: a node fired leaves the queue, and goes back in with a new stamp when its action linked it
again; its log records each node fired with its timestamp and its stamp. Its state and its log
without the stamps are `checkLoop`'s (`checkLoopQ_proj`).

## What is proved

* `clockList_refine_queue` — every run of `link`, `unlink` of a member, `check_timestamp` and steps
  of the rest of the system that change no linked node's timestamp keeps the clock list holding
  its queue, by timestamp nondecreasing and in link order among equal timestamps; `link` puts a
  node right after the last member whose timestamp is `<=` its own.
* `checkTimestamp_fires_expired` — `check_timestamp (now)` returns within `overdue` iterations;
  it fires only nodes whose timestamp is not after `now`, in order of timestamp and, among equal
  timestamps, of link; it fires every node of the list that had expired, and it returns with no
  member expired. On a header still zero it changes nothing.
* `checkTimestamp_timeouts` — on a list of thread timeouts whose `thread::resume` is one-shot,
  `check_timestamp (now)` returns within the list's length, fires exactly the prefix of members
  whose timestamp is not after `now`, and leaves the rest of the list.
-/

namespace MicroOsPlus.Rtos

open Relation

namespace ClockTimestampsList

/-- From `s` to `t`, the header and the nodes `xs` keep their pointers and the nodes their
timestamps. -/
def Keeps (hd : Ptr) (xs : List Ptr) (s t : State) : Prop :=
  LinksAgreeOn (hd :: xs) s t ∧ ∀ p ∈ xs, t.timestamp p = s.timestamp p

/-- The contract of the nodes' `action ()` on the clock list at `hd`: on the head `x` of the list
it returns, and it unlinks `x`, then either keeps the rest of the list and leaves `x` detached,
or keeps the rest of the list, gives `x` a later timestamp, links it again and keeps the list. -/
def ActionOk (hd : Ptr) (action : Ptr → State → Option State) : Prop :=
  ∀ s x xs, ListAt s hd (x :: xs) → (action x s).isSome ∧
    ∀ s', action x s = some s' → ∃ s₁, unlink x s = some s₁ ∧
      ((Keeps hd xs s₁ s' ∧ Detached s' x) ∨
        ∃ s₂ s₃ fuel, Keeps hd xs s₁ s₂ ∧ s.timestamp x < s₂.timestamp x ∧
          link fuel hd x s₂ = some s₃ ∧ Keeps hd (x :: xs) s₃ s')

/-- The queue after `x` fired, in state `s`: without `x`, and with `x` again when it is linked. -/
def afterFire (q : Queue) (x : Ptr) (s : State) : Queue :=
  if s.next x = none then q.erase x else (q.erase x).push x

/-- `check_timestamp`'s loop run beside the queue the list holds (ghost code): the same loop as
`checkLoop`, where each node fired leaves the queue and goes back in when its action linked it
again. The log has each node fired with its timestamp and its stamp. -/
def checkLoopQ (action : Ptr → State → Option State) (hd : Ptr) (now : ℕ) :
    ℕ → State → Queue → Option (State × Queue × List (Ptr × ℕ × ℕ))
  | fuel, s, q =>
    if empty s hd then some (s, q, [])
    else do
      let h ← head s hd
      let ts ← keyAt s.timestamp hd h
      if ts ≤ now then
        match fuel with
        | 0 => none
        | f + 1 => do
          let s' ← action h s
          let (s'', q'', log) ← checkLoopQ action hd now f s' (afterFire q h s')
          pure (s'', q'', (h, ts, q.stamp h) :: log)
      else pure (s, q, [])

/-- `check_timestamp` beside the queue. -/
def checkTimestampQ (action : Ptr → State → Option State) (hd : Ptr) (now fuel : ℕ) (s : State)
    (q : Queue) : Option (State × Queue × List (Ptr × ℕ × ℕ)) :=
  if s.next hd = none then some (s, q, []) else checkLoopQ action hd now fuel s q

/-- Forget the ghost: the state, and the log without the stamps. -/
def forget (r : State × Queue × List (Ptr × ℕ × ℕ)) : State × List (Ptr × ℕ) :=
  (r.1, r.2.2.map fun e => (e.1, e.2.1))

variable {action : Ptr → State → Option State} {hd : Ptr} {now : ℕ}

/-- The ghost changes nothing: `checkLoopQ` computes `checkLoop`. -/
theorem checkLoopQ_proj (fuel : ℕ) (s : State) (q : Queue) :
    (checkLoopQ action hd now fuel s q).map forget = checkLoop action hd now fuel s := by
  induction fuel generalizing s q with
  | zero =>
    rw [checkLoopQ, checkLoop]
    split_ifs
    · rfl
    cases head s hd with
    | none => rfl
    | some h =>
      by_cases hh : h = hd <;> by_cases ht : s.timestamp h ≤ now <;> simp [keyAt, hh, ht, forget]
  | succ f ih =>
    rw [checkLoopQ, checkLoop]
    split_ifs
    · rfl
    cases head s hd with
    | none => rfl
    | some h =>
      by_cases hh : h = hd <;> by_cases ht : s.timestamp h ≤ now <;> simp [keyAt, hh, ht, forget]
      cases action h s with
      | none => rfl
      | some s' =>
        simp only [Option.some_bind, ← ih s' (afterFire q h s')]
        cases checkLoopQ action hd now f s' (afterFire q h s') <;> simp [forget]

variable {s s' : State} {q : Queue} {x : Ptr} {xs : List Ptr}

theorem checkLoopQ_nil (h : StaticListAt s hd []) (fuel : ℕ) :
    checkLoopQ action hd now fuel s q = some (s, q, []) := by
  rw [checkLoopQ, if_pos h.empty_nil]

theorem checkLoopQ_late (h : ListAt s hd (x :: xs)) (hlt : now < s.timestamp x) (fuel : ℕ) :
    checkLoopQ action hd now fuel s q = some (s, q, []) := by
  rw [checkLoopQ, if_neg (by simp [h.empty_cons])]
  simp [head, h.next_hd, keyAt, h.ne_hd (List.mem_cons_self x xs), Nat.not_le.2 hlt]

theorem checkLoopQ_fire (h : ListAt s hd (x :: xs)) (hle : s.timestamp x ≤ now) (f : ℕ) :
    checkLoopQ action hd now (f + 1) s q = (action x s).bind fun s' =>
      (checkLoopQ action hd now f s' (afterFire q x s')).map fun r =>
        (r.1, r.2.1, (x, s.timestamp x, q.stamp x) :: r.2.2) := by
  rw [checkLoopQ, if_neg (by simp [h.empty_cons])]
  simp [head, h.next_hd, keyAt, h.ne_hd (List.mem_cons_self x xs), hle, Option.map_eq_bind]

theorem checkLoopQ_zero (h : ListAt s hd (x :: xs)) (hle : s.timestamp x ≤ now) :
    checkLoopQ action hd now 0 s q = none := by
  rw [checkLoopQ, if_neg (by simp [h.empty_cons])]
  simp [head, h.next_hd, keyAt, h.ne_hd (List.mem_cons_self x xs), hle]

/-! ### The measure -/

/-- The measure of `check_timestamp (now)` on the members `xs`: the sum over the expired ones of
`now + 1 - timestamp`. -/
def overdue (now : ℕ) (ts : Ptr → ℕ) : List Ptr → ℕ
  | [] => 0
  | y :: ys => (now + 1 - ts y) + overdue now ts ys

@[simp] theorem overdue_cons (ts : Ptr → ℕ) (y : Ptr) (ys : List Ptr) :
    overdue now ts (y :: ys) = (now + 1 - ts y) + overdue now ts ys := rfl

theorem overdue_append (ts : Ptr → ℕ) (ys zs : List Ptr) :
    overdue now ts (ys ++ zs) = overdue now ts ys + overdue now ts zs := by
  induction ys with
  | nil => simp [overdue]
  | cons y ys ih => rw [List.cons_append, overdue_cons, overdue_cons, ih, Nat.add_assoc]

theorem overdue_congr (now : ℕ) {ts ts' : Ptr → ℕ} {ys : List Ptr} (h : ∀ y ∈ ys, ts' y = ts y) :
    overdue now ts' ys = overdue now ts ys := by
  induction ys with
  | nil => rfl
  | cons y ys ih =>
    rw [overdue_cons, overdue_cons, h y (List.mem_cons_self _ _),
      ih fun z hz => h z (List.mem_cons_of_mem _ hz)]

/-! ### One firing -/

theorem lex_of_before {a b : Ptr} {ts st : Ptr → ℕ} (h : Before LinkOrder.time ts st a b) :
    Prod.Lex (· < ·) (· < ·) (ts a, st a) (ts b, st b) := by
  obtain ⟨h₁, h₂⟩ := h
  simp only [LinkOrder.time_stay, decide_eq_true_eq] at h₁ h₂
  rw [Prod.lex_def]
  omega

/-- **One firing.** On a list that holds its queue, the action of the head `x` leaves a list that
holds the queue without `x`, or with `x` again at a later timestamp; the other members keep
their timestamps. -/
theorem fire (hact : ActionOk hd action) (h : QueueAt LinkOrder.time s.timestamp s hd q (x :: xs))
    (hs : action x s = some s') :
    ∃ xs', QueueAt LinkOrder.time s'.timestamp s' hd (afterFire q x s') xs' ∧
      (∀ y ∈ xs, s'.timestamp y = s.timestamp y) ∧
      ((s'.next x = none ∧ xs' = xs) ∨
        (s'.next x ≠ none ∧ s.timestamp x < s'.timestamp x ∧
          ∃ A B, xs = A ++ B ∧ xs' = A ++ x :: B)) := by
  have hl := h.listAt_of_mem (List.mem_cons_self x xs)
  obtain ⟨s₁, hs₁, hl₁, -, -⟩ := (show ListAt s hd ([] ++ x :: xs) from hl).erase
  obtain ⟨s₁', hs₁', hcase⟩ := (hact s x xs hl).2 s' hs
  rw [hs₁, Option.some.injEq] at hs₁'
  subst hs₁'
  have hts₁ : s₁.timestamp = s.timestamp := (State.data_eq_iff.1 (unlink_data hs₁)).2.2.2
  have h₁ : QueueAt LinkOrder.time s₁.timestamp s₁ hd (q.erase x) xs := by
    simpa using h.erase (show ListAt s₁ hd ((x :: xs).erase x) by simpa using hl₁)
      fun p _ => show s₁.timestamp p = s.timestamp p by rw [hts₁]
  rcases hcase with ⟨hk, hdet⟩ | ⟨s₂, s₃, fuel, hk₂, hlt, hln, hk₃⟩
  · refine ⟨xs, ?_, fun y hy => (hk.2 y hy).trans (by rw [hts₁]), Or.inl ⟨hdet.2, rfl⟩⟩
    rw [afterFire, if_pos hdet.2]
    exact h₁.env hk.1 hk.2
  · -- the action linked `x` again, at a later timestamp
    have h₂ := h₁.env hk₂.1 hk₂.2
    obtain ⟨hl₃, -, hdata₃⟩ := link_some h₂.list hln
    have hts₃ : s₃.timestamp = s₂.timestamp := (State.data_eq_iff.1 hdata₃).2.2.2
    have h₃ := h₂.link hl₃ fun p _ => show s₃.timestamp p = s₂.timestamp p by rw [hts₃]
    set A := (linkSplit (fun y => LinkOrder.time.stay (s₂.timestamp y) (s₂.timestamp x)) xs).1
    set B := (linkSplit (fun y => LinkOrder.time.stay (s₂.timestamp y) (s₂.timestamp x)) xs).2
    have hAB : A ++ B = xs := linkSplit_append _ xs
    have hmem : ∀ p ∈ A ++ x :: B, p ∈ x :: xs := fun p hp => by
      rw [← hAB]; simp only [List.mem_append, List.mem_cons] at hp ⊢; tauto
    have h' := h₃.env (hk₃.1.mono fun p hp => List.cons_subset_cons hd hmem hp)
      fun p hp => hk₃.2 p (hmem p hp)
    have hnx : s'.next x ≠ none := by
      rw [(hk₃.1 x (by simp)).1]
      exact hl₃.next_ne_none (by simp [linkSpec])
    have hts : ∀ y ∈ x :: xs, s'.timestamp y = s₂.timestamp y := fun y hy => by
      rw [hk₃.2 y hy, hts₃]
    refine ⟨A ++ x :: B, ?_, fun y hy => ?_, Or.inr ⟨hnx, ?_, A, B, hAB.symm, rfl⟩⟩
    · rw [afterFire, if_neg hnx]
      exact h'
    · rw [hts y (List.mem_cons_of_mem x hy), hk₂.2 y hy, hts₁]
    · rw [hts x (List.mem_cons_self x xs)]
      exact hlt

theorem overdue_fire (hle : s.timestamp x ≤ now) {xs' : List Ptr}
    (hts : ∀ y ∈ xs, s'.timestamp y = s.timestamp y)
    (hcase : (s'.next x = none ∧ xs' = xs) ∨
      (s'.next x ≠ none ∧ s.timestamp x < s'.timestamp x ∧
        ∃ A B, xs = A ++ B ∧ xs' = A ++ x :: B)) :
    overdue now s'.timestamp xs' < overdue now s.timestamp (x :: xs) := by
  rcases hcase with ⟨-, rfl⟩ | ⟨-, hlt, A, B, rfl, rfl⟩
  · rw [overdue_cons, overdue_congr now hts]
    omega
  · have hA := overdue_congr now fun y hy => hts y (List.mem_append_left B hy)
    have hB := overdue_congr now fun y hy => hts y (List.mem_append_right A hy)
    rw [overdue_append, overdue_cons, overdue_cons, overdue_append, hA, hB]
    omega

/-! ### The loop -/

theorem afterFire_stamp {y : Ptr} (q : Queue) (s : State) (hy : y ≠ x) :
    (afterFire q x s).stamp y = q.stamp y := by
  unfold afterFire
  split_ifs
  · rfl
  · exact Function.update_noteq hy _ _

/-- Firings in order: by timestamp, then by stamp. -/
abbrev FiresBefore : ℕ × ℕ → ℕ × ℕ → Prop := Prod.Lex (· < ·) (· < ·)

/-- What `check_timestamp`'s loop leaves, run from the list `xs` holding `q` in `s`: a list that
holds the queue with no member expired; a log of firings, all expired, in order of timestamp
and stamp, each after any bound below every member of `xs`; and every member that had expired
fired. -/
def LoopPost (hd : Ptr) (now : ℕ) (s : State) (q : Queue) (xs : List Ptr)
    (r : State × Queue × List (Ptr × ℕ × ℕ)) : Prop :=
  (∃ xs', QueueAt LinkOrder.time r.1.timestamp r.1 hd r.2.1 xs' ∧
    ∀ y ∈ xs', now < r.1.timestamp y) ∧
    (∀ e ∈ r.2.2, e.2.1 ≤ now) ∧
    (∀ y ∈ xs, s.timestamp y ≤ now → y ∈ r.2.2.map Prod.fst) ∧
    (r.2.2.map Prod.snd).Chain' FiresBefore ∧
    ∀ b, (∀ y ∈ xs, FiresBefore b (s.timestamp y, q.stamp y)) →
      (r.2.2.map Prod.snd).Chain FiresBefore b

theorem LoopPost.stop (h : QueueAt LinkOrder.time s.timestamp s hd q xs)
    (hlate : ∀ y ∈ xs, now < s.timestamp y) : LoopPost hd now s q xs (s, q, []) :=
  ⟨⟨xs, h, hlate⟩, by simp, fun y hy hle => absurd hle (Nat.not_le.2 (hlate y hy)),
    List.chain'_nil, fun _ _ => List.Chain.nil⟩

/-- **The loop.** From a list that holds its queue, `check_timestamp`'s loop, when it returns,
leaves what `LoopPost` says. -/
theorem checkLoopQ_spec (hact : ActionOk hd action) : ∀ (fuel : ℕ) {s : State} {q : Queue}
    {xs : List Ptr}, QueueAt LinkOrder.time s.timestamp s hd q xs →
    ∀ {r}, checkLoopQ action hd now fuel s q = some r → LoopPost hd now s q xs r
  | _, s, q, [], h, r, hr => by
    rw [checkLoopQ_nil h.list, Option.some.injEq] at hr
    exact hr ▸ LoopPost.stop h (by simp)
  | fuel, s, q, x :: xs, h, r, hr => by
    have hl := h.listAt_of_mem (List.mem_cons_self x xs)
    by_cases hle : s.timestamp x ≤ now
    swap
    · -- the head is in the future: the loop stops
      rw [checkLoopQ_late hl (Nat.lt_of_not_le hle), Option.some.injEq] at hr
      refine hr ▸ LoopPost.stop h fun y hy => ?_
      rcases List.mem_cons.1 hy with rfl | hy
      · exact Nat.lt_of_not_le hle
      · exact lt_of_lt_of_le (Nat.lt_of_not_le hle) (by simpa using h.stay_head hy)
    cases fuel with
    | zero => simp [checkLoopQ_zero hl hle] at hr
    | succ f =>
      -- the head fires
      rw [checkLoopQ_fire hl hle] at hr
      obtain ⟨s₁, hs₁, hr⟩ := Option.bind_eq_some.1 hr
      obtain ⟨r', hr', rfl⟩ := Option.map_eq_some'.1 hr
      obtain ⟨xs₁, h₁, hts, hcase⟩ := fire hact h hs₁
      obtain ⟨hfin, hexp, hall, -, hbound⟩ := checkLoopQ_spec hact f h₁ hr'
      have hxs : x ∉ xs := (List.nodup_cons.1 (List.nodup_cons.1 hl.nodup).2).1
      -- the members left, and `x` again if it was linked, fire after `x`
      have hmem : ∀ y ∈ xs₁, y ∈ xs ∨ (y = x ∧ s.timestamp x < s₁.timestamp x) := by
        rcases hcase with ⟨-, rfl⟩ | ⟨-, hlt, A, B, rfl, rfl⟩
        · exact fun y hy => Or.inl hy
        · intro y hy
          simp only [List.mem_append, List.mem_cons] at hy
          rcases hy with hy | rfl | hy
          · exact Or.inl (List.mem_append_left B hy)
          · exact Or.inr ⟨rfl, hlt⟩
          · exact Or.inl (List.mem_append_right A hy)
      have hafter : ∀ y ∈ xs₁, FiresBefore (s.timestamp x, q.stamp x)
          (s₁.timestamp y, (afterFire q x s₁).stamp y) := by
        intro y hy
        rcases hmem y hy with hy | ⟨rfl, hlt⟩
        · have hyx : y ≠ x := fun e => hxs (e ▸ hy)
          rw [hts y hy, afterFire_stamp q s₁ hyx]
          exact lex_of_before (List.rel_of_pairwise_cons h.sorted hy)
        · exact Prod.Lex.left _ _ hlt
      have hkept : ∀ y ∈ xs, y ∈ xs₁ := by
        rcases hcase with ⟨-, rfl⟩ | ⟨-, -, A, B, rfl, rfl⟩
        · exact fun y hy => hy
        · intro y hy
          simp only [List.mem_append, List.mem_cons] at hy ⊢
          tauto
      refine ⟨hfin, ?_, ?_, hbound _ hafter, fun b hb => ?_⟩
      · simp only [List.mem_cons, forall_eq_or_imp]
        exact ⟨hle, hexp⟩
      · intro y hy hy'
        rcases List.mem_cons.1 hy with rfl | hy
        · exact List.mem_cons_self _ _
        · exact List.mem_cons_of_mem _ (hall y (hkept y hy) (by rwa [hts y hy]))
      · exact List.Chain.cons (hb x (List.mem_cons_self x xs)) (hbound _ hafter)

theorem checkLoopQ_isSome (hact : ActionOk hd action) : ∀ (fuel : ℕ) {s : State} {q : Queue}
    {xs : List Ptr}, QueueAt LinkOrder.time s.timestamp s hd q xs →
    overdue now s.timestamp xs ≤ fuel → ∃ r, checkLoopQ action hd now fuel s q = some r
  | _, s, q, [], h, _ => ⟨_, checkLoopQ_nil h.list _⟩
  | fuel, s, q, x :: xs, h, hf => by
    have hl := h.listAt_of_mem (List.mem_cons_self x xs)
    by_cases hle : s.timestamp x ≤ now
    swap
    · exact ⟨_, checkLoopQ_late hl (Nat.lt_of_not_le hle) _⟩
    obtain ⟨s₁, hs₁⟩ := Option.isSome_iff_exists.1 (hact s x xs hl).1
    obtain ⟨xs₁, h₁, hts, hcase⟩ := fire hact h hs₁
    have hlt := overdue_fire hle hts hcase
    cases fuel with
    | zero => simp at hf; omega
    | succ f =>
      obtain ⟨r, hr⟩ := checkLoopQ_isSome hact f h₁ (by omega)
      exact ⟨_, by rw [checkLoopQ_fire hl hle, hs₁, Option.some_bind, hr]; rfl⟩

theorem checkTimestampQ_proj (fuel : ℕ) (s : State) (q : Queue) :
    (checkTimestampQ action hd now fuel s q).map forget = checkTimestamp action hd now fuel s := by
  unfold checkTimestampQ checkTimestamp
  split_ifs
  · rfl
  · exact checkLoopQ_proj fuel s q

/-- From a list that holds its queue, `check_timestamp`, when it returns, leaves what `LoopPost`
says; on a header still zero it does nothing. -/
theorem checkTimestampQ_spec (hact : ActionOk hd action) {fuel : ℕ}
    (h : QueueAt LinkOrder.time s.timestamp s hd q xs) {r : State × Queue × List (Ptr × ℕ × ℕ)}
    (hr : checkTimestampQ action hd now fuel s q = some r) : LoopPost hd now s q xs r := by
  unfold checkTimestampQ at hr
  split_ifs at hr with hz
  · rw [Option.some.injEq] at hr
    have hxs : xs = [] := by
      rcases h.list with hl | ⟨-, hxs⟩
      · exact absurd hz (hl.next_ne_none (List.mem_cons_self _ _))
      · exact hxs
    subst hxs
    exact hr ▸ LoopPost.stop h (by simp)
  · exact checkLoopQ_spec hact fuel h hr

/-! ### The actions -/

theorem Keeps.refl (hd : Ptr) (xs : List Ptr) (s : State) : Keeps hd xs s s :=
  ⟨fun _ _ => ⟨rfl, rfl⟩, fun _ _ => rfl⟩

/-- The contract of the routine an action runs once it has unlinked its node `n`, on the list `n`
has just left: it returns, and either keeps the list and leaves `n` detached, or gives `n` a
later timestamp, links it again and keeps the list. -/
def RoutineOk (hd : Ptr) (r : Ptr → State → Option State) : Prop :=
  ∀ n t xs, Detached t n → ListAt t hd xs → ∃ t', r n t = some t' ∧
    ((Keeps hd xs t t' ∧ Detached t' n) ∨
      ∃ t₂ t₃ fuel, Keeps hd xs t t₂ ∧ t.timestamp n < t₂.timestamp n ∧
        link fuel hd n t₂ = some t₃ ∧ Keeps hd (n :: xs) t₃ t')

/-- The routine of a one-shot node: it returns, keeps the list and leaves the node detached. -/
def OneShot (hd : Ptr) (r : Ptr → State → Option State) : Prop :=
  ∀ n t xs, Detached t n → ListAt t hd xs → ∃ t', r n t = some t' ∧ Keeps hd xs t t' ∧ Detached t' n

theorem OneShot.routineOk {r : Ptr → State → Option State} (hr : OneShot hd r) : RoutineOk hd r :=
  fun n t xs hn hl => (hr n t xs hn hl).imp fun _ ⟨ht, hk, hn'⟩ => ⟨ht, Or.inl ⟨hk, hn'⟩⟩

/-- **Unlink, then a routine.** An action that unlinks its node and then runs a routine that
keeps the routine's contract keeps the contract of the actions. -/
theorem actionOk_of_routineOk {r : Ptr → State → Option State}
    (hact : ∀ n s, action n s = (unlink n s).bind (r n)) (hr : RoutineOk hd r) :
    ActionOk hd action := by
  intro s x xs hl
  obtain ⟨s₁, hs₁, hl₁, hx₁, -⟩ := (show ListAt s hd ([] ++ x :: xs) from hl).erase
  have hts : s₁.timestamp = s.timestamp := (State.data_eq_iff.1 (unlink_data hs₁)).2.2.2
  obtain ⟨t', ht', hcases⟩ := hr x s₁ xs hx₁ (by simpa using hl₁)
  have hx : action x s = some t' := by rw [hact, hs₁, Option.some_bind, ht']
  refine ⟨by simp [hx], fun s' hs' => ⟨s₁, hs₁, ?_⟩⟩
  rw [hx, Option.some.injEq] at hs'
  subst hs'
  rwa [hts] at hcases

end ClockTimestampsList

open ClockTimestampsList in
/-- `timer_node::action` keeps the contract when the timer's routine keeps its own. -/
theorem TimerNode.actionOk {hd : Ptr} {isr : Ptr → State → Option State}
    (hisr : RoutineOk hd isr) : ActionOk hd (TimerNode.action isr) :=
  actionOk_of_routineOk (fun _ _ => rfl) hisr

open ClockTimestampsList in
/-- The routine of `timeout_thread_node::action`: resume the node's thread unless it is
destroyed. It is one-shot when `thread::resume` is. -/
theorem TimeoutThreadNode.oneShot {hd : Ptr} {thr : Ptr → Ptr}
    {resume : Ptr → State → Option State} (hres : OneShot hd fun n => resume (thr n)) :
    OneShot hd fun n t => if t.schedState (thr n) ≠ .destroyed then resume (thr n) t else pure t := by
  intro n t xs hn hl
  by_cases hdes : t.schedState (thr n) = .destroyed
  · exact ⟨t, by simp [hdes], Keeps.refl _ _ _, hn⟩
  · obtain ⟨t', ht', hk⟩ := hres n t xs hn hl
    exact ⟨t', by simp [hdes, ht'], hk⟩

open ClockTimestampsList in
/-- `timeout_thread_node::action` keeps the contract when `thread::resume`, on a list the node has
just left, returns, keeps the list and leaves the node detached. -/
theorem TimeoutThreadNode.actionOk {hd : Ptr} {thr : Ptr → Ptr}
    {resume : Ptr → State → Option State} (hres : OneShot hd fun n => resume (thr n)) :
    ActionOk hd (TimeoutThreadNode.action thr resume) :=
  actionOk_of_routineOk (fun _ _ => rfl) (TimeoutThreadNode.oneShot hres).routineOk

/-- The routine of a periodic timer, as in the spec's S4: give the node the timestamp one
`period` on and link it again. The model's `link` takes an allowance for its walk, which the code
does not bound; where `fuel` moves are too few it does not return, and the routine then leaves
the timer stopped. -/
def TimerNode.periodic (period fuel : ℕ) (hd n : Ptr) (t : State) : Option State :=
  let t₁ := { t with timestamp := Function.update t.timestamp n (t.timestamp n + period) }
  some ((ClockTimestampsList.link fuel hd n t₁).getD t₁)

open ClockTimestampsList in
/-- A periodic timer's routine keeps the contract: it links its node again at a later timestamp,
or leaves it detached. -/
theorem TimerNode.periodic_routineOk {period : ℕ} (hp : 0 < period) (fuel : ℕ) (hd : Ptr) :
    RoutineOk hd (TimerNode.periodic period fuel hd) := by
  intro n t xs hn hl
  set t₁ : State := { t with timestamp := Function.update t.timestamp n (t.timestamp n + period) }
  have hr : TimerNode.periodic period fuel hd n t = some ((link fuel hd n t₁).getD t₁) := rfl
  have hnx : n ∉ xs := fun hm => hl.not_mem_of_detached hn (List.mem_cons_of_mem _ hm)
  have hk : Keeps hd xs t t₁ :=
    ⟨fun _ _ => ⟨rfl, rfl⟩, fun p hp => Function.update_noteq (ne_of_mem_of_not_mem hp hnx) _ _⟩
  cases hs : link fuel hd n t₁ with
  | none => exact ⟨t₁, by rw [hr, hs]; rfl, Or.inl ⟨hk, hn⟩⟩
  | some t₃ =>
    exact ⟨t₃, by rw [hr, hs]; rfl,
      Or.inr ⟨t₁, t₃, fuel, hk, by simp [t₁, hp], hs, Keeps.refl _ _ _⟩⟩

/-! ### The laws -/

/-- What can happen to the clock list at `hd`, with the queue it holds. -/
inductive ClockStep (hd : Ptr) : State × Queue → State × Queue → Prop
  /-- `clock_timestamps_list::link (n)`. -/
  | link {s s' : State} {q : Queue} {fuel : ℕ} {n : Ptr} :
      ClockTimestampsList.link fuel hd n s = some s' → ClockStep hd (s, q) (s', q.push n)
  /-- `unlink ()` of a member: a timeout or a timer cancelled. -/
  | unlink {s s' : State} {q : Queue} {x : Ptr} :
      x ∈ q.items → unlink x s = some s' → ClockStep hd (s, q) (s', q.erase x)
  /-- `clock_timestamps_list::check_timestamp (now)`, with actions that keep the contract. -/
  | checkTimestamp {s s' : State} {q q' : Queue} {action : Ptr → State → Option State}
      {now fuel : ℕ} {glog : List (Ptr × ℕ × ℕ)} :
      ClockTimestampsList.ActionOk hd action →
      ClockTimestampsList.checkTimestampQ action hd now fuel s q = some (s', q', glog) →
      ClockStep hd (s, q) (s', q')
  /-- A step of the rest of the system. -/
  | env {s s' : State} {q : Queue} :
      LinksAgreeOn (hd :: q.items) s s' → (∀ p ∈ q.items, s'.timestamp p = s.timestamp p) →
      ClockStep hd (s, q) (s', q)

namespace ClockStep

variable {hd : Ptr} {s s' : State} {q q' : Queue} {xs : List Ptr}

/-- One step keeps the clock list holding its queue. -/
theorem queueAt (hst : ClockStep hd (s, q) (s', q'))
    (h : QueueAt LinkOrder.time s.timestamp s hd q xs) :
    ∃ xs', QueueAt LinkOrder.time s'.timestamp s' hd q' xs' := by
  cases hst with
  | link hs =>
    obtain ⟨hl, -, hdata⟩ := ClockTimestampsList.link_some h.list hs
    exact ⟨_, h.link hl fun p _ => by rw [(State.data_eq_iff.1 hdata).2.2.2]⟩
  | unlink hx hs =>
    exact ⟨_, h.unlink hx hs fun p _ => by rw [(State.data_eq_iff.1 (unlink_data hs)).2.2.2]⟩
  | checkTimestamp hact hs =>
    obtain ⟨xs', hxs', -⟩ := (ClockTimestampsList.checkTimestampQ_spec hact h hs).1
    exact ⟨xs', hxs'⟩
  | env hs hkey =>
    exact ⟨xs, h.env (hs.mono fun p hp => List.cons_subset_cons _ h.perm.subset hp)
      fun p hp => hkey p (h.perm.subset hp)⟩

end ClockStep

/-- **The clock list refines a stable priority queue.** From an empty list, every run of `link`,
`unlink` of a member, `check_timestamp (now)` (whose actions keep the contract) and steps of the
rest of the system that change no linked node's timestamp reaches only states where the list
holds its queue: head to tail, the nodes linked and not removed, by timestamp nondecreasing,
equal timestamps in the order they were linked. Each `link` puts its node right after the last
member whose timestamp is `<=` its own, and returns with `size - 1` moves of the walk allowed;
the `check_timestamp` of a run is the code's. -/
theorem clockList_refine_queue (hd : Ptr) :
    (∀ {s₀ : State} {c : State × Queue}, ListAt s₀ hd [] →
      ReflTransGen (ClockStep hd) (s₀, Queue.empty) c →
      ∃ xs, QueueAt LinkOrder.time c.1.timestamp c.1 hd c.2 xs) ∧
    (∀ {s s' : State} {q : Queue} {xs : List Ptr} {fuel : ℕ} {n : Ptr},
      QueueAt LinkOrder.time s.timestamp s hd q xs →
      ClockTimestampsList.link fuel hd n s = some s' →
      ∃ xs', ListAt s' hd xs' ∧ InsertedAfterLast LinkOrder.time s.timestamp n xs xs') ∧
    (∀ {s : State} {xs : List Ptr} {fuel : ℕ} {n : Ptr}, ListAt s hd xs → Detached s n →
      xs.length ≤ fuel + 1 → ∃ s', ClockTimestampsList.link fuel hd n s = some s') ∧
    (∀ (action : Ptr → State → Option State) (now fuel : ℕ) (s : State) (q : Queue),
      (ClockTimestampsList.checkTimestampQ action hd now fuel s q).map ClockTimestampsList.forget =
        ClockTimestampsList.checkTimestamp action hd now fuel s) :=
  ⟨fun h₀ hrun => run_invariant (fun c => ∃ xs, QueueAt _ c.1.timestamp c.1 hd c.2 xs)
      (fun hst ⟨_, hxs⟩ => ClockStep.queueAt hst hxs) hrun ⟨[], QueueAt.init h₀.staticListAt _ _⟩,
    fun h hs => ⟨_, (ClockTimestampsList.link_some h.list hs).1, h.insertedAfterLast _⟩,
    fun h hn hf => (ClockTimestampsList.link_eq h hn hf).imp fun _ h => h.1,
    fun _ _ fuel s q => ClockTimestampsList.checkTimestampQ_proj fuel s q⟩

namespace ClockTimestampsList

variable {action : Ptr → State → Option State} {hd : Ptr} {now : ℕ} {s : State} {q : Queue}
  {xs : List Ptr}

/-- **`check_timestamp` fires exactly the expired nodes, in order.** On a clock list that holds its
queue, with actions that keep the contract: on a header still zero it changes nothing; with the
measure `overdue` as allowance it returns; and what it returns fires only nodes whose timestamp
is not after `now`, timestamps nondecreasing, and beside the queue, in order of timestamp and
then of link; every member that had expired fired; and the list it leaves holds the queue with
no member expired. -/
theorem checkTimestamp_fires_expired (hact : ActionOk hd action)
    (h : QueueAt LinkOrder.time s.timestamp s hd q xs) :
    (∀ fuel, s.next hd = none → checkTimestamp action hd now fuel s = some (s, [])) ∧
    (∃ r, checkTimestamp action hd now (overdue now s.timestamp xs) s = some r) ∧
    ∀ fuel s' log, checkTimestamp action hd now fuel s = some (s', log) →
      (∀ e ∈ log, e.2 ≤ now) ∧ (log.map Prod.snd).Chain' (· ≤ ·) ∧
      (∀ y ∈ xs, s.timestamp y ≤ now → y ∈ log.map Prod.fst) ∧
      ∃ q' glog, checkTimestampQ action hd now fuel s q = some (s', q', glog) ∧
        glog.map (fun e => (e.1, e.2.1)) = log ∧ (glog.map Prod.snd).Chain' FiresBefore ∧
        ∃ xs', QueueAt LinkOrder.time s'.timestamp s' hd q' xs' ∧
          ∀ y ∈ xs', now < s'.timestamp y := by
  refine ⟨fun fuel hz => by simp [checkTimestamp, hz], ?_, fun fuel s' log hs => ?_⟩
  · obtain ⟨r, hr⟩ :
        ∃ r, checkTimestampQ action hd now (overdue now s.timestamp xs) s q = some r := by
      unfold checkTimestampQ
      split_ifs
      · exact ⟨_, rfl⟩
      · exact checkLoopQ_isSome hact _ h le_rfl
    exact ⟨forget r, by rw [← checkTimestampQ_proj, hr]; rfl⟩
  rw [← checkTimestampQ_proj _ _ q] at hs
  obtain ⟨⟨s'', q', glog⟩, hr, he⟩ := Option.map_eq_some'.1 hs
  simp only [forget, Prod.mk.injEq] at he
  obtain ⟨rfl, rfl⟩ := he
  obtain ⟨hfin, hexp, hall, hchain, -⟩ := checkTimestampQ_spec hact h hr
  refine ⟨fun e he => ?_, ?_, fun y hy hle => by simpa using hall y hy hle,
    q', glog, hr, rfl, hchain, hfin⟩
  · obtain ⟨e', he', rfl⟩ := List.mem_map.1 he
    exact hexp e' he'
  · have : (glog.map Prod.snd).Chain' fun a b => a.1 ≤ b.1 :=
      hchain.imp fun _ _ hab => (Prod.lex_def.1 hab).elim le_of_lt fun h => h.1.le
    simpa [List.chain'_map] using this

/-- A periodic timer at `100`, of period `50`, which links itself again from its action: a tick
at `250` returns within the measure. -/
theorem checkTimestamp_fires_expired_periodic :
    ∃ r, checkTimestamp (TimerNode.action (TimerNode.periodic 50 4 0)) 0 250
      (overdue 250 (fun _ => 100) [1]) { ringState 0 [1] with timestamp := fun _ => 100 } =
        some r :=
  (checkTimestamp_fires_expired (TimerNode.actionOk (TimerNode.periodic_routineOk (by decide) 4 0))
    (show QueueAt LinkOrder.time (fun _ => 100) { ringState 0 [1] with timestamp := fun _ => 100 }
      0 ⟨[1], id, 2⟩ [1] from ⟨Or.inl (by decide), List.Perm.refl _, by decide, by decide⟩)).2.1

/-- Timeouts at `100, 50, 75, 50`: a tick at `60` fires the two at `50`, in the order they were
linked; a tick at `200` fires the others, `75` then `100`. -/
example : (do
    let s ← link 3 0 1 { ringState 0 [] with timestamp := fun n => [0, 100, 50, 75, 50].getD n 0 }
    let s ← link 3 0 2 s
    let s ← link 3 0 3 s
    let s ← link 3 0 4 s
    let (s, l₁) ← checkTimestamp (TimerNode.action fun _ t => some t) 0 60 4 s
    let (_, l₂) ← checkTimestamp (TimerNode.action fun _ t => some t) 0 200 4 s
    pure (l₁, l₂)) = some ([(2, 50), (4, 50)], [(3, 75), (1, 100)]) := by
  decide

/-- A periodic timer at `100`, of period `50`, catches up: a tick at `250` fires it at `100`,
`150`, `200` and `250`, and leaves it at `300`. -/
example : (do
    let s ← link 0 0 1 { ringState 0 [] with timestamp := fun _ => 100 }
    let (s, l) ← checkTimestamp
      (TimerNode.action fun n t =>
        link 0 0 n { t with timestamp := Function.update t.timestamp n (t.timestamp n + 50) })
      0 250 4 s
    pure (l, s.timestamp 1)) = some ([(1, 100), (1, 150), (1, 200), (1, 250)], 300) := by
  decide

/-! ### One-shot nodes -/

theorem checkLoop_late (h : ListAt s hd (x :: xs)) (hlt : now < s.timestamp x) (fuel : ℕ) :
    checkLoop action hd now fuel s = some (s, []) := by
  rw [checkLoop, if_neg (by simp [h.empty_cons])]
  simp [head, h.next_hd, keyAt, h.ne_hd (List.mem_cons_self x xs), Nat.not_le.2 hlt]

theorem checkLoop_fire (h : ListAt s hd (x :: xs)) (hle : s.timestamp x ≤ now) (f : ℕ) :
    checkLoop action hd now (f + 1) s = (action x s).bind fun s' =>
      (checkLoop action hd now f s').map fun r => (r.1, (x, s.timestamp x) :: r.2) := by
  rw [checkLoop, if_neg (by simp [h.empty_cons])]
  simp [head, h.next_hd, keyAt, h.ne_hd (List.mem_cons_self x xs), hle, Option.map_eq_bind]

/-- With actions that unlink their node and run a one-shot routine, `check_timestamp`'s loop
fires the longest prefix of the members whose timestamps (`ts`) are not after `now`, once each
and in order, and leaves the rest. -/
theorem checkLoop_oneShot {r : Ptr → State → Option State}
    (hact : ∀ n s, action n s = (unlink n s).bind (r n)) (hr : OneShot hd r) (ts : Ptr → ℕ) :
    ∀ {xs : List Ptr} {s : State} {fuel : ℕ}, ListAt s hd xs → (∀ p ∈ xs, s.timestamp p = ts p) →
      xs.length ≤ fuel →
      ∃ s', checkLoop action hd now fuel s =
          some (s', (xs.takeWhile fun x => ts x ≤ now).map fun x => (x, ts x)) ∧
        ListAt s' hd (xs.dropWhile fun x => ts x ≤ now)
  | [], s, _, h, _, _ => ⟨s, by rw [checkLoop, if_pos (h.empty_iff.2 rfl)]; rfl, h⟩
  | x :: xs, s, fuel, h, hts, hf => by
    have hx := hts x (List.mem_cons_self x xs)
    by_cases hle : ts x ≤ now
    swap
    · exact ⟨s, by rw [checkLoop_late h (by omega)]; simp [hle], by simpa [hle] using h⟩
    -- the head fires: its action unlinks it and its routine keeps the rest
    obtain ⟨f, rfl⟩ : ∃ f, fuel = f + 1 := ⟨fuel - 1, by simp at hf; omega⟩
    obtain ⟨s₁, hs₁, hl₁, hx₁, -⟩ := (show ListAt s hd ([] ++ x :: xs) from h).erase
    obtain ⟨t, ht, hk, -⟩ := hr x s₁ xs hx₁ (by simpa using hl₁)
    have hts₁ : s₁.timestamp = s.timestamp := (State.data_eq_iff.1 (unlink_data hs₁)).2.2.2
    obtain ⟨s', hs', hl'⟩ := checkLoop_oneShot hact hr ts
      ((by simpa using hl₁ : ListAt s₁ hd xs).agreeOn hk.1)
      (fun p hp => by rw [hk.2 p hp, hts₁, hts p (List.mem_cons_of_mem x hp)])
      (by simpa using hf)
    refine ⟨s', ?_, by simpa [hle] using hl'⟩
    rw [checkLoop_fire h (hx ▸ hle), hact, hs₁, Option.some_bind, ht, Option.some_bind, hs']
    simp [hle, hx]

/-- **A tick fires exactly the expired prefix of the thread timeouts.** On a clock list of thread
timeouts, whatever the order of its timestamps, when `thread::resume`, on a list the node has just
left, returns, keeps the list and leaves the node detached: `check_timestamp (now)`, with as many
iterations allowed as the list has members, returns; it has fired, once each and head to tail,
exactly the longest prefix of the members whose timestamps are not after `now`, each with its
timestamp, and the list holds the rest. -/
theorem checkTimestamp_timeouts {thr : Ptr → Ptr} {resume : Ptr → State → Option State}
    (hres : OneShot hd fun n => resume (thr n)) (h : ListAt s hd xs) (now : ℕ) :
    ∃ s', checkTimestamp (TimeoutThreadNode.action thr resume) hd now xs.length s =
        some (s', (xs.takeWhile fun x => s.timestamp x ≤ now).map fun x => (x, s.timestamp x)) ∧
      ListAt s' hd (xs.dropWhile fun x => s.timestamp x ≤ now) := by
  rw [checkTimestamp, if_neg (h.next_ne_none (List.mem_cons_self _ _))]
  exact checkLoop_oneShot (fun _ _ => rfl) (TimeoutThreadNode.oneShot hres) s.timestamp h
    (fun _ _ => rfl) le_rfl

/-- Timeouts at `1, 2, 3` of threads that `resume` makes ready: a tick at `2` fires the first
two. -/
theorem checkTimestamp_timeouts_two :
    ∃ s', checkTimestamp (TimeoutThreadNode.action id fun th t => some (t.setSchedState th .ready))
        0 2 [1, 2, 3].length (ringState 0 [1, 2, 3]) =
        some (s', ([1, 2, 3].takeWhile fun x => (ringState 0 [1, 2, 3]).timestamp x ≤ 2).map
          fun x => (x, (ringState 0 [1, 2, 3]).timestamp x)) ∧
      ListAt s' 0 ([1, 2, 3].dropWhile fun x => (ringState 0 [1, 2, 3]).timestamp x ≤ 2) :=
  checkTimestamp_timeouts
    (fun _ t _ hn _ => ⟨t.setSchedState _ .ready, rfl, ⟨fun _ _ => ⟨rfl, rfl⟩, fun _ _ => rfl⟩, hn⟩)
    (by decide) 2

end ClockTimestampsList

end MicroOsPlus.Rtos
