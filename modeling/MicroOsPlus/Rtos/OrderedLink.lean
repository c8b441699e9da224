import MicroOsPlus.Rtos.Ring
import Mathlib.Data.List.DropRight

/-!
# Ordered insertion

`ready_threads_list::link`, `waiting_threads_list::link` and `clock_timestamps_list::link` are
one algorithm on three keys: the ready list compares `thread_.prio_`, a wait list
`thread_.sched_prio()`, the clock list `timestamp`. With `k` the new node's key and `stay x k`
the test that keeps a node of key `k` behind a member of key `x` (`prio <= x` on the priority
lists, `timestamp >= x` on the clock list), `link`

1. inserts at the end when the list is empty or `stay (tail key) k`;
2. else inserts at the beginning when `!stay (head key) k`;
3. else walks back from the tail, `while (!stay (after key) k) after = after->prev;`, and
   inserts after the node where the walk stops.

The source writes the tests of paths 2 and 3 as `prio > x` and `timestamp < x`, the negations
of the test of path 1; `linkOrdered` takes the one test `stay` and each list gives its own
(`Lists`).

## The model

Keys are read through pointers cast to the node types. The header is not a node, so a key read
through it has no value: `keyAt` is `none` there, and a `link` that would read one does not
return. The walk has no bound in the source; `walkBack` takes the number of moves it may make,
and `linkOrdered_eq` shows that `size - 1` moves always suffice, on every list, whatever the
order of its keys: no call reads through the header or runs out of moves.

On the list of members, `link` is `linkSpec`: the same three paths (`linkSplit` says where the
list is cut), with the walk read as `List.rdropWhile`/`List.rtakeWhile`.
-/

namespace MicroOsPlus.Rtos

section Code

variable (stay : ℕ → ℕ → Bool) (key : Ptr → ℕ)

/-- The key of the node at `p`, read through a pointer cast to a node type; the header `hd` is
not a node, and a read through it has no value. -/
def keyAt (hd : Ptr) (p : Ptr) : Option ℕ := if p = hd then none else some (key p)

/-- The loop of the ordered `link`s, `while (!stay (after key) k) after = after->prev;`, from
`after`, making at most `fuel` moves. -/
def walkBack (hd : Ptr) (k : ℕ) (s : State) : ℕ → Ptr → Option Ptr
  | fuel, after => do
    let ka ← keyAt key hd after
    if stay ka k then pure after
    else match fuel with
      | 0 => none
      | f + 1 => do
        let p ← s.prev after
        walkBack hd k s f p

/-- The node `after` which the ordered `link`s insert a node of key `k`. -/
def linkAfter (fuel : ℕ) (hd : Ptr) (k : ℕ) (s : State) : Option Ptr := do
  let tl ← tail s hd
  if empty s hd then pure tl
  else do
    let kt ← keyAt key hd tl
    if stay kt k then pure tl
    else do
      let h ← head s hd
      let kh ← keyAt key hd h
      if !stay kh k then pure hd
      else walkBack stay key hd k s fuel tl

/-- The body of the ordered `link`s: find `after`, then `insert_after (node, after)`. -/
def linkOrdered (fuel : ℕ) (hd n : Ptr) (s : State) : Option State := do
  let after ← linkAfter stay key fuel hd (key n) s
  insertAfter n after s

end Code

/-! ### The three paths on the list of members -/

/-- Where an ordered `link` cuts the members, `p x` being `stay (x key) k`: at the end, at the
beginning, or after the last member satisfying `p`. -/
def linkSplit (p : Ptr → Bool) (xs : List Ptr) : List Ptr × List Ptr :=
  if xs.getLast?.all p then (xs, [])
  else if xs.head?.all p then (xs.rdropWhile (fun x => !p x), xs.rtakeWhile (fun x => !p x))
  else ([], xs)

/-- The members after an ordered `link` of `n`. -/
def linkSpec (p : Ptr → Bool) (n : Ptr) (xs : List Ptr) : List Ptr :=
  (linkSplit p xs).1 ++ n :: (linkSplit p xs).2

theorem rdropWhile_append_rtakeWhile (q : Ptr → Bool) (xs : List Ptr) :
    xs.rdropWhile q ++ xs.rtakeWhile q = xs := by
  rw [List.rdropWhile, List.rtakeWhile, ← List.reverse_append, List.takeWhile_append_dropWhile,
    List.reverse_reverse]

theorem linkSplit_append (p : Ptr → Bool) (xs : List Ptr) :
    (linkSplit p xs).1 ++ (linkSplit p xs).2 = xs := by
  unfold linkSplit
  split_ifs <;> simp [rdropWhile_append_rtakeWhile]

/-! ### The walk -/

section Walk

variable {stay : ℕ → ℕ → Bool} {key : Ptr → ℕ} {s : State} {hd : Ptr} {k : ℕ}

/-- Walking back along `prev` over nodes whose key goes behind `k` stops at the first node whose
key does not, after as many moves as it passed nodes. -/
theorem walkBack_eq {y : Ptr} (hy : y ≠ hd) (hyk : stay (key y) k = true) :
    ∀ {zr rest : List Ptr} {fuel : ℕ}, (zr ++ y :: rest).Chain' (fun u v => s.prev u = some v) →
      (∀ z ∈ zr, z ≠ hd ∧ stay (key z) k = false) → zr.length ≤ fuel →
      walkBack stay key hd k s fuel (zr.headD y) = some y
  | [], _, fuel, _, _, _ => by cases fuel <;> simp [walkBack, keyAt, hy, hyk]
  | z :: zr, rest, fuel, hc, hz, hf => by
    obtain ⟨f, rfl⟩ : ∃ f, fuel = f + 1 := ⟨fuel - 1, by simp at hf; omega⟩
    have hzz := hz z (List.mem_cons_self _ _)
    have hp : s.prev z = some (zr.headD y) := by
      cases zr <;> simpa using (List.chain'_cons'.1 hc).1
    simp only [List.headD_cons, walkBack, keyAt, hzz.1, if_false, Option.pure_def,
      Option.bind_eq_bind, Option.some_bind, hzz.2, Bool.false_eq_true, hp]
    have hf' : zr.length ≤ f := by simp at hf; omega
    exact walkBack_eq hy hyk (List.chain'_cons'.1 hc).2
      (fun z hz' => hz z (List.mem_cons_of_mem _ hz')) hf'

end Walk

/-- A walk that stops within `f` moves stops at the same node with any larger allowance: the
bound only cuts runs the source would not finish. -/
theorem walkBack_mono {stay : ℕ → ℕ → Bool} {key : Ptr → ℕ} {s : State} {hd : Ptr} {k : ℕ} :
    ∀ {f f' : ℕ} {a b : Ptr}, walkBack stay key hd k s f a = some b → f ≤ f' →
      walkBack stay key hd k s f' a = some b
  | f, f', a, b, h, hle => by
    unfold walkBack at h ⊢
    cases hk : keyAt key hd a with
    | none => simp [hk] at h
    | some ka =>
      simp only [hk, Option.bind_eq_bind, Option.some_bind] at h ⊢
      split_ifs at h ⊢ with hs
      · exact h
      · obtain ⟨g, rfl⟩ : ∃ g, f = g + 1 := by
          cases f with
          | zero => simp at h
          | succ g => exact ⟨g, rfl⟩
        obtain ⟨g', rfl⟩ : ∃ g', f' = g' + 1 := ⟨f' - 1, by omega⟩
        simp only [Option.bind_eq_some] at h ⊢
        obtain ⟨p, hp, hw⟩ := h
        exact ⟨p, hp, walkBack_mono hw (by omega)⟩

/-- Following `prev` from the last member goes back through the members to the header. -/
theorem ListAt.prev_chain {s : State} {hd : Ptr} {xs : List Ptr} (h : ListAt s hd xs) :
    (xs.reverse ++ [hd]).Chain' (fun u v => s.prev u = some v) := by
  have hc : (hd :: xs).Chain' (Adj s) :=
    h.chain.prefix ⟨[hd], by simp⟩
  rw [← List.reverse_cons, List.chain'_reverse]
  exact hc.imp fun _ _ hab => hab.2

/-! ### `link` on a list -/

section Link

variable {stay : ℕ → ℕ → Bool} {key : Ptr → ℕ} {s : State} {hd : Ptr} {xs : List Ptr}

/-- On every list, whatever the order of its keys, `after` is the header or the member where
`linkSplit` cuts, found with at most `size - 1` moves of the walk and no key read through the
header. -/
theorem linkAfter_eq {k fuel : ℕ} (h : ListAt s hd xs) (hf : xs.length ≤ fuel + 1) :
    linkAfter stay key fuel hd k s =
      (hd :: (linkSplit (fun x => stay (key x) k) xs).1).getLast? := by
  by_cases hne : xs = []
  · subst hne
    simp [linkAfter, tail, h.prev_hd, h.empty_iff.2 rfl, linkSplit]
  have hmem : ∀ x ∈ xs, x ≠ hd := fun x hx e => (List.nodup_cons.1 h.nodup).1 (e ▸ hx)
  have hl := hmem _ (List.getLast_mem hne)
  have hh := hmem _ (List.head_mem hne)
  have he : empty s hd = false := Bool.eq_false_iff.2 fun e => hne (h.empty_iff.1 e)
  have hlast : (hd :: xs).getLast? = some (xs.getLast hne) := by
    rw [List.getLast?_eq_getLast _ (List.cons_ne_nil _ _), List.getLast_cons hne]
  have htl : tail s hd = some (xs.getLast hne) := by
    rw [tail, h.prev_hd, List.getLastD_eq_getLast?, List.getLast?_eq_getLast _ hne]; rfl
  have hhd : head s hd = some (xs.head hne) := by
    rw [head, h.next_hd, List.headD_eq_head?, List.head?_eq_head hne]; rfl
  by_cases ht : stay (key (xs.getLast hne)) k
  · simp [linkAfter, he, htl, keyAt, hl, ht, linkSplit, List.getLast?_eq_getLast _ hne, hlast]
  by_cases hk : stay (key (xs.head hne)) k
  swap
  · simp [linkAfter, he, htl, hhd, keyAt, hl, hh, ht, hk, linkSplit,
      List.getLast?_eq_getLast _ hne, List.head?_eq_head hne]
  -- the walk: `xs.reverse` is the nodes going behind `k`, then the node where it stops
  set q : Ptr → Bool := fun x => !stay (key x) k
  obtain ⟨y, rest, hyr⟩ : ∃ y rest, xs.reverse.dropWhile q = y :: rest := by
    refine List.exists_cons_of_ne_nil fun hnil => ?_
    have := List.dropWhile_eq_nil_iff.1 hnil (xs.head hne) (by simp [List.head_mem])
    simp [q, hk] at this
  have hy : stay (key y) k = true := by
    have := List.head_dropWhile_not q xs.reverse (by simp [hyr])
    simpa [q, hyr] using this
  have hsplit : xs.reverse = xs.reverse.takeWhile q ++ y :: rest := by
    rw [← hyr, List.takeWhile_append_dropWhile]
  have hc : (xs.reverse.takeWhile q ++ y :: (rest ++ [hd])).Chain'
      (fun u v => s.prev u = some v) := by
    have := h.prev_chain
    rwa [hsplit, List.append_assoc, List.cons_append] at this
  have hyx : y ∈ xs := by
    rw [← List.mem_reverse, hsplit]; exact List.mem_append_right _ (List.mem_cons_self y rest)
  have hwalk := walkBack_eq (hmem y hyx) hy hc
    (fun z hz => ⟨hmem z (List.mem_reverse.1 ((List.takeWhile_sublist _).subset hz)),
      by simpa [q] using List.mem_takeWhile_imp hz⟩)
    (show (xs.reverse.takeWhile q).length ≤ fuel by
      have := congrArg List.length hsplit; simp at this; omega)
  have hstart : (xs.reverse.takeWhile q).headD y = xs.getLast hne := by
    have := congrArg List.head? hsplit
    rw [List.head?_reverse, List.getLast?_eq_getLast _ hne] at this
    cases hz : xs.reverse.takeWhile q <;> rw [hz] at this <;> simpa using this.symm
  rw [hstart] at hwalk
  simp only [linkAfter, he, htl, hhd, keyAt, hl, hh, ht, hk, hwalk, Option.pure_def,
    Option.bind_eq_bind, Option.some_bind, if_false, Bool.false_eq_true, Bool.not_true,
    Bool.not_false, cond_true, ite_true, linkSplit, List.getLast?_eq_getLast _ hne,
    List.head?_eq_head hne, Option.all_some]
  rw [List.rdropWhile, hyr, List.reverse_cons, ← List.cons_append, List.getLast?_concat]

/-- **The ordered `link`s.** On every list, whatever the order of its keys, with `size - 1` moves
of the walk allowed, `link` of a detached node returns; the node joins the list where
`linkSpec` puts it, and only the pointers of the node, the header and the members change. -/
theorem linkOrdered_eq (stay : ℕ → ℕ → Bool) (key : Ptr → ℕ) {n fuel : ℕ} (h : ListAt s hd xs)
    (hn : Detached s n) (hf : xs.length ≤ fuel + 1) :
    ∃ s', linkOrdered stay key fuel hd n s = some s' ∧
      ListAt s' hd (linkSpec (fun x => stay (key x) (key n)) n xs) ∧
      LinksAgreeOff (n :: hd :: xs) s s' := by
  set p : Ptr → Bool := fun x => stay (key x) (key n)
  obtain ⟨a, ha⟩ : ∃ a, (hd :: (linkSplit p xs).1).getLast? = some a :=
    ⟨_, List.getLast?_eq_getLast _ (by simp)⟩
  have h' : ListAt s hd ((linkSplit p xs).1 ++ (linkSplit p xs).2) := by rwa [linkSplit_append]
  obtain ⟨s', hs', hl, hag⟩ := h'.insert hn ha
  refine ⟨s', ?_, hl, by rwa [linkSplit_append] at hag⟩
  rw [linkOrdered, linkAfter_eq h hf, ha]
  exact hs'

theorem linkAfter_mono {k f f' : ℕ} {a : Ptr}
    (h : linkAfter stay key f hd k s = some a) (hle : f ≤ f') :
    linkAfter stay key f' hd k s = some a := by
  simp only [linkAfter, Option.bind_eq_bind] at h ⊢
  cases htl : tail s hd with
  | none => simp [htl] at h
  | some tl =>
    simp only [htl, Option.some_bind] at h ⊢
    split_ifs at h ⊢
    · exact h
    · cases hkt : keyAt key hd tl with
      | none => simp [hkt] at h
      | some kt =>
        simp only [hkt, Option.some_bind] at h ⊢
        split_ifs at h ⊢
        · exact h
        · cases hh : head s hd with
          | none => simp [hh] at h
          | some hh' =>
            cases hkh : keyAt key hd hh' with
            | none => simp [hh, hkh] at h
            | some kh =>
              simp only [hh, hkh, Option.some_bind] at h ⊢
              split_ifs at h ⊢
              · exact h
              · exact walkBack_mono h hle

theorem linkOrdered_mono {n f f' : ℕ} {s' : State}
    (h : linkOrdered stay key f hd n s = some s') (hle : f ≤ f') :
    linkOrdered stay key f' hd n s = some s' := by
  simp only [linkOrdered, Option.bind_eq_bind, Option.bind_eq_some] at h ⊢
  obtain ⟨a, ha, hs'⟩ := h
  exact ⟨a, linkAfter_mono ha hle, hs'⟩

/-- A `link` that returns linked a detached node. -/
theorem linkOrdered_detached {n fuel : ℕ} {s' : State}
    (hs : linkOrdered stay key fuel hd n s = some s') : Detached s n := by
  simp only [linkOrdered, Option.bind_eq_bind, Option.bind_eq_some] at hs
  obtain ⟨_, -, hs⟩ := hs
  exact insertAfter_detached hs

/-- On a header still zero, `link` dereferences `tail ()`, `nullptr`. -/
theorem linkOrdered_zero {n fuel : ℕ} (h : s.prev hd = none) :
    linkOrdered stay key fuel hd n s = none := by
  simp [linkOrdered, linkAfter, tail, h]

/-- Whatever the allowance, a `link` that returns returns what `linkOrdered_eq` says. -/
theorem linkOrdered_some {n fuel : ℕ} {s' : State} (h : ListAt s hd xs)
    (hs : linkOrdered stay key fuel hd n s = some s') :
    ListAt s' hd (linkSpec (fun x => stay (key x) (key n)) n xs) ∧
      LinksAgreeOff (n :: hd :: xs) s s' := by
  obtain ⟨s'', hs'', hl, hag⟩ := linkOrdered_eq stay key h (linkOrdered_detached hs)
    (show xs.length ≤ max xs.length fuel + 1 by omega)
  have := linkOrdered_mono hs (Nat.le_max_right xs.length fuel)
  rw [hs''] at this
  cases this
  exact ⟨hl, hag⟩

end Link

end MicroOsPlus.Rtos
