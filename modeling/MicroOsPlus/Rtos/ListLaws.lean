import MicroOsPlus.Rtos.Lists

/-!
# Laws of `link` and `unlink`

Two laws of the list operations, over every list:

* `orderedLink_total` — the three ordered `link`s return on every list, sorted or not (a wait
  list whose threads' `sched_prio ()` changed after they were linked is not), with `size - 1`
  moves of the backward walk allowed: the walk stops at the head at the latest, because the
  head case was taken before it, and no key is read through the header.
* `link_unlink` — `unlink` after the `link` of any class gives back every pointer of the heap as
  it was before the `link`; `unlink` of a detached node changes nothing, and a second `unlink`
  changes nothing either.
-/

namespace MicroOsPlus.Rtos

/-- **The ordered `link`s on any list.** For every list, whatever the order of its keys, and
every detached node, each ordered `link` returns with `size - 1` moves of the backward walk
allowed, never reading a key through the header; the node is spliced right after the header or
a member, and the list holds one member more. -/
theorem orderedLink_total (thr : Ptr → Ptr) {s : State} {hd n : Ptr} {xs : List Ptr}
    (h : ListAt s hd xs) (hn : Detached s n) :
    (∃ s' ys zs, ReadyThreadsList.link thr (xs.length - 1) hd n s = some s' ∧ xs = ys ++ zs ∧
      ListAt s' hd (ys ++ n :: zs)) ∧
    (∃ s' ys zs, WaitingThreadsList.link thr (xs.length - 1) hd n s = some s' ∧ xs = ys ++ zs ∧
      ListAt s' hd (ys ++ n :: zs)) ∧
    (∃ s' ys zs, ClockTimestampsList.link (xs.length - 1) hd n s = some s' ∧ xs = ys ++ zs ∧
      ListAt s' hd (ys ++ n :: zs)) := by
  have key : ∀ k : ListKind, ∃ s' ys zs, k.link thr (xs.length - 1) hd n s = some s' ∧
      xs = ys ++ zs ∧ ListAt s' hd (ys ++ n :: zs) := fun k => by
    obtain ⟨s', hs⟩ : ∃ s', k.link thr (xs.length - 1) hd n s = some s' :=
      k.link_isSome h hn (by omega)
    obtain ⟨ys, zs, hxs, hl, -⟩ := k.link_spec h.staticListAt hs
    exact ⟨s', ys, zs, hs, hxs, hl⟩
  exact ⟨key .ready, key .waiting, key .clock⟩

/-- An unsorted wait list (priorities `9, 2, 7, 1`): a thread of priority `6` goes after `7`,
where the walk from the tail stops. -/
theorem orderedLink_total_unsorted :
    ∃ s' ys zs, WaitingThreadsList.link id ([9, 2, 7, 1].length - 1) 0 6
        (ringState 0 [9, 2, 7, 1]) = some s' ∧ [9, 2, 7, 1] = ys ++ zs ∧
      ListAt s' 0 (ys ++ 6 :: zs) :=
  (orderedLink_total id (by decide) (by decide)).2.1

theorem unlink_detached_self {s s' : State} {p : Ptr} (h : unlink p s = some s') :
    Detached s' p := by
  unfold unlink at h
  split at h
  · split_ifs at h with hp
    cases h
    exact ⟨hp, ‹_›⟩
  · split at h
    · cases h
    · cases h; simp [Detached]

/-- **`link` then `unlink` is the identity on the links.** After the `link` of any class into a
list, `unlink` of the node gives back every `prev` and `next` of the heap, the header's, the
members' and the node's own (`nullptr` again); `unlink` of a detached node changes nothing, so a
second `unlink` changes nothing either. -/
theorem link_unlink (k : ListKind) (thr : Ptr → Ptr) (fuel : ℕ) {s s' : State} {hd n : Ptr}
    {xs : List Ptr} (h : ListAt s hd xs) (hn : Detached s n)
    (hs : k.link thr fuel hd n s = some s') :
    (∃ s'', unlink n s' = some s'' ∧ s''.next = s.next ∧ s''.prev = s.prev) ∧
      (∀ (t : State) (p : Ptr), Detached t p → unlink p t = some t) ∧
      (∀ (t t' : State) (p : Ptr), unlink p t = some t' → unlink p t' = some t') := by
  refine ⟨?_, fun t p hp => unlink_detached hp,
    fun t t' p ht => unlink_detached (unlink_detached_self ht)⟩
  obtain ⟨ys, zs, rfl, hl, hag, -⟩ := k.link_spec h.staticListAt hs
  obtain ⟨s'', hs'', hl'', hn'', hag''⟩ := hl.erase
  refine ⟨s'', hs'', ?_⟩
  have hall : ∀ p, s''.next p = s.next p ∧ s''.prev p = s.prev p := by
    intro p
    by_cases hp : p ∈ hd :: (ys ++ zs)
    · exact h.links_unique hl'' p hp
    by_cases hpn : p = n
    · subst hpn
      rw [hn''.1, hn''.2, hn.1, hn.2]
      exact ⟨rfl, rfl⟩
    have h₁ := hag p (by simp_all)
    have h₂ := hag'' p (by simp_all)
    exact ⟨h₂.1.trans h₁.1, h₂.2.trans h₁.2⟩
  exact ⟨funext fun p => (hall p).1, funext fun p => (hall p).2⟩

theorem link_unlink_clock :
    ∃ s', ListKind.clock.link id 3 0 6 (ringState 0 [9, 2, 7, 1]) = some s' ∧
      ∃ s'', unlink 6 s' = some s'' ∧ s''.next = (ringState 0 [9, 2, 7, 1]).next ∧
        s''.prev = (ringState 0 [9, 2, 7, 1]).prev :=
  ⟨_, rfl, (link_unlink .clock id 3
    (show ListAt (ringState 0 [9, 2, 7, 1]) 0 [9, 2, 7, 1] by decide)
    (show Detached (ringState 0 [9, 2, 7, 1]) 6 by decide) rfl).1⟩

end MicroOsPlus.Rtos
