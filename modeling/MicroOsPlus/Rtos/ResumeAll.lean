import MicroOsPlus.Rtos.Lists

/-!
# `resume_all`

`waiting_threads_list::resume_all` runs `resume_one` until its wait list is empty. Between two
iterations it calls `thread::resume`, code outside the list, so what it does depends on what
that code does to the list: here `thread::resume` keeps the pointers of the header and of the
members, as it does when it neither links a node into this list nor unlinks one of its members.
That it links no node into the list is not enough: a `thread::resume` that unlinks another waiter
makes `resume_all` end early, without resuming that waiter's thread.

## What is proved

* `resumeAll_spec` — `resume_all` on a list of `N` members is `resume_one` exactly `N` times,
  each removing the head: it is `resumeEach`, which takes the members from the head, unlinks each
  and calls `resume()` on its thread exactly when that thread is not destroyed. It ends with the
  list empty and the `N` nodes detached, and it returns whenever `resume()` does.
* `resumeAll_unlinks_waiter` — with a `thread::resume` that unlinks another waiter, `resume_all`
  on three waiters returns after two iterations, and one thread is never resumed.
-/

namespace MicroOsPlus.Rtos

namespace WaitingThreadsList

variable {thr : Ptr → Ptr} {resume : Ptr → State → Option State} {s : State} {hd x : Ptr}
  {xs ws : List Ptr}

/-- What `resume_all` is for: take the members from the head, unlink each, and call `resume()`
on its thread exactly when that thread is not destroyed. Returns the threads resumed. -/
def resumeEach (thr : Ptr → Ptr) (resume : Ptr → State → Option State) :
    List Ptr → State → Option (State × List Ptr)
  | [], s => some (s, [])
  | x :: xs, s => do
    let s ← unlink x s
    let (s, l₁) ← if s.schedState (thr x) ≠ .destroyed then (resume (thr x) s).map (·, [thr x])
      else some (s, [])
    let (s, l₂) ← resumeEach thr resume xs s
    pure (s, l₁ ++ l₂)

theorem resumeAll_nil (h : ListAt s hd []) (f : ℕ) :
    resumeAll thr resume hd f s = some (s, []) := by
  cases f <;> simp [resumeAll, (h.empty_iff).2 rfl]

theorem resumeAll_zero (h : ListAt s hd (x :: xs)) : resumeAll thr resume hd 0 s = none := by
  simp [resumeAll, h.empty_cons]

theorem resumeAll_succ (h : ListAt s hd (x :: xs)) (f : ℕ) :
    resumeAll thr resume hd (f + 1) s = (resumeOne thr resume hd s).bind fun r =>
      (resumeAll thr resume hd f r.1).map fun r' => (r'.1, r.2 ++ r'.2) := by
  simp only [resumeAll, h.empty_cons, Option.bind_eq_bind, Option.pure_def, Option.map_eq_bind]
  rfl

/-- On a list with head `x`, the first member `resumeEach` takes is the one `resume_one`
removes. -/
theorem resumeEach_cons (h : ListAt s hd (x :: xs)) :
    resumeEach thr resume (x :: xs) s = (resumeOne thr resume hd s).bind fun r =>
      (resumeEach thr resume xs r.1).map fun r' => (r'.1, r.2 ++ r'.2) := by
  obtain ⟨s₁, hs₁, -, -, -, hd₁, hone⟩ := resumeOne_cons thr resume h
  rw [hone, (State.data_eq_iff.1 hd₁).1.symm]
  by_cases hx : s₁.schedState (thr x) = .destroyed <;>
    simp [resumeEach, hs₁, hx, Option.map_eq_bind, Option.bind_assoc]

/-- One `resume_one` on a list with head `x`, when `resume()` keeps the pointers of the nodes
`ws`, among them the header and the members: the rest of the list is left, `x` is detached, and
the other nodes of `ws` keep their pointers. -/
theorem resumeOne_step (hres : ∀ th t t', resume th t = some t' → LinksAgreeOn ws t t')
    (h : ListAt s hd (x :: xs)) (hw : hd :: x :: xs ⊆ ws) {s₂ : State} {l : List Ptr}
    (hs : resumeOne thr resume hd s = some (s₂, l)) :
    ListAt s₂ hd xs ∧ Detached s₂ x ∧
      ∀ p ∈ ws, p ∉ hd :: x :: xs → s₂.next p = s.next p ∧ s₂.prev p = s.prev p := by
  obtain ⟨s₁, -, hl, hx, hag, -, hone⟩ := resumeOne_cons thr resume h
  have hkeep : LinksAgreeOn ws s₁ s₂ := by
    rw [hone] at hs
    split_ifs at hs
    · obtain ⟨t, ht, he⟩ := Option.map_eq_some'.1 hs
      cases he
      exact hres _ _ _ ht
    · cases hs
      exact fun _ _ => ⟨rfl, rfl⟩
  refine ⟨hl.agreeOn (hkeep.mono fun p hp => hw ?_), ?_, fun p hp hn => ?_⟩
  · exact List.cons_subset_cons hd (List.subset_cons_self x xs) hp
  · obtain ⟨e₁, e₂⟩ := hkeep x (hw (by simp))
    exact ⟨e₂.trans hx.1, e₁.trans hx.2⟩
  · obtain ⟨e₁, e₂⟩ := hkeep p hp
    obtain ⟨f₁, f₂⟩ := hag p hn
    exact ⟨e₁.trans f₁, e₂.trans f₂⟩

theorem tail_subset (hw : hd :: x :: xs ⊆ ws) : hd :: xs ⊆ ws :=
  (List.cons_subset_cons hd (List.subset_cons_self x xs)).trans hw

section Run

variable (hres : ∀ th t t', resume th t = some t' → LinksAgreeOn ws t t')
include hres

/-- With as many iterations allowed as the list has members, `resume_all` is `resumeEach`. -/
theorem resumeAll_eq_resumeEach : ∀ {xs : List Ptr} {s : State}, ListAt s hd xs → hd :: xs ⊆ ws →
    ∀ f, xs.length ≤ f → resumeAll thr resume hd f s = resumeEach thr resume xs s
  | [], s, h, _, f, _ => by simp [resumeAll_nil h, resumeEach]
  | x :: xs, s, h, hw, f + 1, hf => by
    rw [resumeAll_succ h, resumeEach_cons h]
    refine Option.bind_congr fun r hr => ?_
    rw [resumeAll_eq_resumeEach (resumeOne_step hres h hw hr).1 (tail_subset hw) f
      (by simpa using hf)]

/-- With fewer iterations allowed than the list has members, `resume_all` does not return. -/
theorem resumeAll_lt : ∀ {xs : List Ptr} {s : State}, ListAt s hd xs → hd :: xs ⊆ ws →
    ∀ f, f < xs.length → resumeAll thr resume hd f s = none
  | x :: xs, s, h, _, 0, _ => resumeAll_zero h
  | x :: xs, s, h, hw, f + 1, hf => by
    rw [resumeAll_succ h, Option.bind_eq_none]
    intro r hr
    rw [resumeAll_lt (resumeOne_step hres h hw hr).1 (tail_subset hw) f (by simpa using hf)]
    rfl

/-- `resumeEach` ends with the list empty and every member detached; the other nodes of `ws`
keep their pointers. -/
theorem resumeEach_post : ∀ {xs : List Ptr} {s s' : State} {l : List Ptr}, ListAt s hd xs →
    hd :: xs ⊆ ws → resumeEach thr resume xs s = some (s', l) →
    ListAt s' hd [] ∧ (∀ x ∈ xs, Detached s' x) ∧
      ∀ p ∈ ws, p ∉ hd :: xs → s'.next p = s.next p ∧ s'.prev p = s.prev p
  | [], s, s', l, h, _, hs => by
    simp only [resumeEach, Option.some.injEq, Prod.mk.injEq] at hs
    obtain ⟨rfl, -⟩ := hs
    exact ⟨h, by simp, fun _ _ _ => ⟨rfl, rfl⟩⟩
  | x :: xs, s, s', l, h, hw, hs => by
    rw [resumeEach_cons h] at hs
    obtain ⟨⟨s₂, l₁⟩, hr, hs⟩ := Option.bind_eq_some.1 hs
    obtain ⟨⟨s₃, l₂⟩, hs₃, he⟩ := Option.map_eq_some'.1 hs
    cases he
    obtain ⟨hl₂, hx₂, hag₂⟩ := resumeOne_step hres h hw hr
    obtain ⟨hl₃, hdet, hag₃⟩ := resumeEach_post hl₂ (tail_subset hw) hs₃
    have hxn : x ∉ hd :: xs := by
      have := h.nodup
      simp only [List.nodup_cons, List.mem_cons, not_or] at this ⊢
      exact ⟨Ne.symm this.1.1, this.2.1⟩
    refine ⟨hl₃, fun y hy => ?_, fun p hp hn => ?_⟩
    · rcases List.mem_cons.1 hy with rfl | hy
      · obtain ⟨e₁, e₂⟩ := hag₃ y (hw (by simp)) hxn
        exact ⟨e₂.trans hx₂.1, e₁.trans hx₂.2⟩
      · exact hdet y hy
    · have hn' : p ∉ hd :: xs := fun hm =>
        hn (List.cons_subset_cons hd (List.subset_cons_self x xs) hm)
      obtain ⟨e₁, e₂⟩ := hag₃ p hp hn'
      obtain ⟨f₁, f₂⟩ := hag₂ p hp hn
      exact ⟨e₁.trans f₁, e₂.trans f₂⟩

/-- When `resume()` always returns, so does `resumeEach`. -/
theorem resumeEach_isSome (htot : ∀ th t, (resume th t).isSome) :
    ∀ {xs : List Ptr} {s : State}, ListAt s hd xs → hd :: xs ⊆ ws →
      (resumeEach thr resume xs s).isSome
  | [], s, _, _ => rfl
  | x :: xs, s, h, hw => by
    obtain ⟨s₁, hs₁, -, -, -, -, hone⟩ := resumeOne_cons thr resume h
    obtain ⟨⟨s₂, l₁⟩, hr⟩ : ∃ r, resumeOne thr resume hd s = some r := by
      rw [hone]
      split_ifs
      · obtain ⟨t, ht⟩ := Option.isSome_iff_exists.1 (htot (thr x) s₁)
        exact ⟨_, by rw [ht]; rfl⟩
      · exact ⟨_, rfl⟩
    obtain ⟨r', hr'⟩ := Option.isSome_iff_exists.1
      (resumeEach_isSome htot (resumeOne_step hres h hw hr).1 (tail_subset hw))
    simp [resumeEach_cons h, hr, hr']

end Run

/-- **`resume_all`.** On a wait list of `N` members, when `thread::resume` keeps the pointers of
the header and of the members (it links no node into this list): with `N` iterations allowed
`resume_all` is `resumeEach`, which removes the members from the head and calls `resume()` once
on each thread not destroyed and never on a destroyed one; with fewer it does not return; what
it returns has the list empty and the `N` nodes detached; and it returns whenever `resume()`
does. -/
theorem resumeAll_spec (hres : ∀ th t t', resume th t = some t' → LinksAgreeOn (hd :: xs) t t')
    (h : ListAt s hd xs) :
    (∀ f, xs.length ≤ f → resumeAll thr resume hd f s = resumeEach thr resume xs s) ∧
    (∀ f, f < xs.length → resumeAll thr resume hd f s = none) ∧
    (∀ s' l, resumeEach thr resume xs s = some (s', l) →
      ListAt s' hd [] ∧ ∀ x ∈ xs, Detached s' x) ∧
    ((∀ th t, (resume th t).isSome) → (resumeEach thr resume xs s).isSome) :=
  ⟨resumeAll_eq_resumeEach hres h (List.Subset.refl _),
    resumeAll_lt hres h (List.Subset.refl _),
    fun _ _ hs => (resumeEach_post hres h (List.Subset.refl _) hs).imp_right And.left,
    fun htot => resumeEach_isSome hres htot h (List.Subset.refl _)⟩

/-- A wait list of three threads, the second destroyed: `resume_all` with three iterations is
`resumeEach`, which resumes the first and the third. -/
theorem resumeAll_spec_three :
    resumeAll id (fun th t => some (t.setSchedState th .ready)) 0 3
        ((ringState 0 [1, 2, 3]).setSchedState 2 .destroyed) =
      resumeEach id (fun th t => some (t.setSchedState th .ready)) [1, 2, 3]
        ((ringState 0 [1, 2, 3]).setSchedState 2 .destroyed) :=
  (resumeAll_spec
    (fun th t t' ht => by simp only [Option.some.injEq] at ht; subst ht; simp [LinksAgreeOn])
    (show ListAt ((ringState 0 [1, 2, 3]).setSchedState 2 .destroyed) 0 [1, 2, 3] by decide)).1
    3 le_rfl

/-- A `thread::resume` that links no node into the list, but whose call for thread `1` unlinks the
waiter `2`: `resume_all` on the waiters `1, 2, 3` returns after two iterations, with the list
empty, having resumed threads `1` and `3` only; thread `2`, not destroyed, is never resumed. -/
theorem resumeAll_unlinks_waiter :
    ∃ s', resumeAll id (fun th t => if th = 1 then unlink 2 t else some t) 0 2
        (ringState 0 [1, 2, 3]) = some (s', [1, 3]) ∧
      ListAt s' 0 [] ∧ (ringState 0 [1, 2, 3]).schedState 2 ≠ .destroyed :=
  ⟨_, rfl, by decide, by decide⟩

end WaitingThreadsList

end MicroOsPlus.Rtos
