import MicroOsPlus.Rtos.Links
import Mathlib.Data.List.Nodup

/-!
# Circular lists through a header

What it means for the pointers of a state to form one of the lists of `os-lists.cpp`: starting
at the header and following `next` visits the members head to tail and comes back to the header,
`prev` does the same backwards, and no node is visited twice (`ListAt`). Everything the list
operations do is then read off the members' list: `insert_after` inserts into it, `unlink`
erases from it, `head()`, `tail()` and `empty()` read its ends.

The two workhorses are `chain'_splice` and `chain'_unsplice`, the pointer surgery of
`insert_after` and `unlink` on a path of doubly linked nodes; the statements about `ListAt`
follow from them and from the frame lemma `chain'_adj_frame`: a path depends on no pointer but
its own nodes'.
-/

namespace MicroOsPlus.Rtos

/-- `a` and `b` are consecutive: `a->next == b` and `b->prev == a`. -/
def Adj (s : State) (a b : Ptr) : Prop := s.next a = some b ∧ s.prev b = some a

/-- `ListAt s hd xs`: in `s`, the list whose header is the node `hd` holds the members `xs`, head
to tail; the header and the members form a ring of consecutive nodes with no repetition. -/
structure ListAt (s : State) (hd : Ptr) (xs : List Ptr) : Prop where
  /-- No node occurs twice, and the header is not a member. -/
  nodup : (hd :: xs).Nodup
  /-- Header, members, header: each consecutive pair is doubly linked. -/
  chain : (hd :: (xs ++ [hd])).Chain' (Adj s)

instance (s : State) : DecidableRel (Adj s) := fun _ _ => inferInstanceAs (Decidable (_ ∧ _))

/-- `Chain' (Adj s)`, decided pair by pair. -/
def adjChain (s : State) : List Ptr → Bool
  | a :: b :: l => decide (Adj s a b) && adjChain s (b :: l)
  | _ => true

theorem adjChain_iff (s : State) : ∀ l, adjChain s l = true ↔ l.Chain' (Adj s)
  | [] => by simp [adjChain]
  | [_] => by simp [adjChain]
  | a :: b :: l => by simp [adjChain, adjChain_iff s (b :: l)]

instance (s : State) (hd : Ptr) (xs : List Ptr) : Decidable (ListAt s hd xs) :=
  decidable_of_iff ((hd :: xs).Nodup ∧ adjChain s (hd :: (xs ++ [hd])) = true)
    ⟨fun h => ⟨h.1, (adjChain_iff s _).1 h.2⟩, fun h => ⟨h.1, (adjChain_iff s _).2 h.2⟩⟩

/-- A state holding the one list with header `hd` and members `xs`, every other node detached;
each node's keys are its address. -/
def ringState (hd : Ptr) (xs : List Ptr) : State where
  prev p := ((xs ++ [hd]).zip (hd :: xs)).lookup p
  next p := ((hd :: xs).zip (xs ++ [hd])).lookup p
  schedState _ := .waiting
  prio p := p
  schedPrio p := p
  timestamp p := p

example : ListAt (ringState 0 [1, 2, 3]) 0 [1, 2, 3] := by decide

/-! ### Paths of consecutive nodes -/

/-- A path depends only on the `next` of its nodes but the last and the `prev` of its nodes but
the first. -/
theorem chain'_adj_frame {s s' : State} : ∀ {l : List Ptr}, l.Chain' (Adj s) →
    (∀ p ∈ l.dropLast, s'.next p = s.next p) → (∀ p ∈ l.tail, s'.prev p = s.prev p) →
    l.Chain' (Adj s')
  | [], _, _, _ => List.chain'_nil
  | [_], _, _, _ => List.chain'_singleton _
  | a :: b :: l, h, hn, hp => by
    rw [List.chain'_cons] at h ⊢
    refine ⟨⟨?_, ?_⟩, chain'_adj_frame h.2 (fun p hm => hn p ?_) (fun p hm => hp p ?_)⟩
    · rw [hn a (by simp)]; exact h.1.1
    · rw [hp b (by simp)]; exact h.1.2
    · simp only [List.dropLast_cons₂]; exact List.mem_cons_of_mem _ hm
    · exact List.mem_cons_of_mem _ hm

/-- Every node of a path but the last has a `next`. -/
theorem chain'_adj_next {s : State} : ∀ {l : List Ptr}, l.Chain' (Adj s) →
    ∀ p ∈ l.dropLast, s.next p ≠ none
  | [], _, _, hp => by simp at hp
  | [_], _, _, hp => by simp at hp
  | a :: b :: l, h, p, hp => by
    rw [List.chain'_cons] at h
    rw [List.dropLast_cons₂, List.mem_cons] at hp
    rcases hp with rfl | hp
    · simp [h.1.1]
    · exact chain'_adj_next h.2 p hp

/-- In a path whose nodes but the last, and whose nodes but the first, are distinct, the two
nodes `a`, `b` of a consecutive pair occur nowhere else in the places a splice reads. -/
theorem nodup_around {L₁ L₂ : List Ptr} {a b : Ptr} (hd : (L₁ ++ a :: b :: L₂).dropLast.Nodup)
    (ht : (L₁ ++ a :: b :: L₂).tail.Nodup) :
    a ∉ L₁ ∧ a ∉ (b :: L₂).dropLast ∧ b ∉ (L₁ ++ [a]).tail ∧ b ∉ L₂ := by
  rw [List.dropLast_append_cons, List.dropLast_cons₂, List.nodup_middle, List.nodup_cons,
    List.mem_append, not_or] at hd
  rw [show L₁ ++ a :: b :: L₂ = (L₁ ++ [a]) ++ b :: L₂ by simp,
    List.tail_append_of_ne_nil (by simp),
    List.nodup_middle, List.nodup_cons, List.mem_append, not_or] at ht
  exact ⟨hd.1.1, hd.1.2, ht.1.1, ht.1.2⟩

/-- The parts of a path up to `a` and from `b` on survive writing `a->next`, `b->prev` and the
pointers of a node `z` that is in neither part. -/
theorem chain'_around {s t : State} {L₁ L₂ : List Ptr} {a b z : Ptr}
    (h₁ : (L₁ ++ [a]).Chain' (Adj s)) (h₃ : (b :: L₂).Chain' (Adj s))
    (ha₁ : a ∉ L₁) (ha₂ : a ∉ (b :: L₂).dropLast) (hb₁ : b ∉ (L₁ ++ [a]).tail) (hb₂ : b ∉ L₂)
    (hz₁ : z ∉ L₁) (hza : z ≠ a) (hzb : z ≠ b) (hz₂ : z ∉ L₂)
    (hnext : ∀ p, p ≠ a → p ≠ z → t.next p = s.next p)
    (hprev : ∀ p, p ≠ b → p ≠ z → t.prev p = s.prev p) :
    (L₁ ++ [a]).Chain' (Adj t) ∧ (b :: L₂).Chain' (Adj t) := by
  refine ⟨chain'_adj_frame h₁ (fun p hp => hnext p ?_ ?_) (fun p hp => hprev p ?_ ?_),
    chain'_adj_frame h₃ (fun p hp => hnext p ?_ ?_) (fun p hp => hprev p ?_ ?_)⟩
  · rw [List.dropLast_concat] at hp; exact ne_of_mem_of_not_mem hp ha₁
  · rw [List.dropLast_concat] at hp; exact ne_of_mem_of_not_mem hp hz₁
  · exact ne_of_mem_of_not_mem hp hb₁
  · rintro rfl
    rcases List.mem_append.1 (List.mem_of_mem_tail hp) with hp | hp
    · exact hz₁ hp
    · exact hza (List.mem_singleton.1 hp)
  · exact ne_of_mem_of_not_mem hp ha₂
  · rintro rfl
    rcases List.mem_cons.1 (List.dropLast_subset _ hp) with hp | hp
    · exact hzb hp
    · exact hz₂ hp
  · exact ne_of_mem_of_not_mem hp hb₂
  · exact ne_of_mem_of_not_mem hp hz₂

/-- `insert_after` on a path: `n` goes between the consecutive nodes `a` and `b`. -/
theorem chain'_splice {s : State} {L₁ L₂ : List Ptr} {a b n : Ptr}
    (h : (L₁ ++ a :: b :: L₂).Chain' (Adj s)) (hd : (L₁ ++ a :: b :: L₂).dropLast.Nodup)
    (ht : (L₁ ++ a :: b :: L₂).tail.Nodup) (hn : n ∉ L₁ ++ a :: b :: L₂) :
    (L₁ ++ a :: n :: b :: L₂).Chain'
      (Adj ((((s.setPrev n (some a)).setNext n (some b)).setPrev b (some n)).setNext a
        (some n))) := by
  obtain ⟨ha₁, ha₂, hb₁, hb₂⟩ := nodup_around hd ht
  rw [List.chain'_append_cons_cons] at h ⊢
  simp only [List.mem_append, List.mem_cons, not_or] at hn
  obtain ⟨hn₁, hna, hnb, hn₂⟩ := hn
  obtain ⟨h₁, -, h₃⟩ := h
  obtain ⟨h₁', h₃'⟩ := chain'_around
    (t := (((s.setPrev n (some a)).setNext n (some b)).setPrev b (some n)).setNext a (some n))
    h₁ h₃ ha₁ ha₂ hb₁ hb₂ hn₁ hna hnb hn₂ (fun p hpa hpn => by simp [hpa, hpn])
    (fun p hpb hpn => by simp [hpb, hpn])
  exact ⟨h₁', ⟨by simp, by simp [hnb]⟩, List.chain'_cons.2 ⟨⟨by simp [hna], by simp⟩, h₃'⟩⟩

/-- `unlink` on a path: the node `x` between `a` and `b` leaves, and `a`, `b` become consecutive. -/
theorem chain'_unsplice {s : State} {L₁ L₂ : List Ptr} {a x b : Ptr}
    (h : (L₁ ++ a :: x :: b :: L₂).Chain' (Adj s)) (hd : (L₁ ++ a :: x :: b :: L₂).dropLast.Nodup)
    (ht : (L₁ ++ a :: x :: b :: L₂).tail.Nodup) :
    (L₁ ++ a :: b :: L₂).Chain'
      (Adj ((((s.setNext a (some b)).setPrev b (some a)).setPrev x none).setNext x none)) := by
  rw [List.dropLast_append_cons, List.dropLast_cons₂, List.dropLast_cons₂] at hd
  rw [show L₁ ++ a :: x :: b :: L₂ = (L₁ ++ [a]) ++ x :: b :: L₂ by simp,
    List.tail_append_of_ne_nil (by simp)] at ht
  have hd' := hd
  have ht' := ht
  simp only [List.nodup_append, List.nodup_cons, List.mem_cons, List.mem_append, not_or,
    List.disjoint_cons_right] at hd' ht'
  have hd₀ : (L₁ ++ a :: b :: L₂).dropLast.Nodup := by
    rw [List.dropLast_append_cons, List.dropLast_cons₂]
    exact hd.sublist
      (List.Sublist.append_left (List.Sublist.cons₂ _ (List.sublist_cons_self _ _)) _)
  have ht₀ : (L₁ ++ a :: b :: L₂).tail.Nodup := by
    rw [show L₁ ++ a :: b :: L₂ = (L₁ ++ [a]) ++ b :: L₂ by simp,
      List.tail_append_of_ne_nil (by simp)]
    exact ht.sublist (List.Sublist.append_left (List.sublist_cons_self _ _) _)
  obtain ⟨ha₁, ha₂, hb₁, hb₂⟩ := nodup_around hd₀ ht₀
  have hxa : x ≠ a := fun e => hd'.2.1.1.1 e.symm
  have hxb : x ≠ b := ht'.2.1.1.1
  rw [List.chain'_append_cons_cons] at h ⊢
  rw [List.chain'_cons] at h
  obtain ⟨h₁, -, -, h₃⟩ := h
  obtain ⟨h₁', h₃'⟩ := chain'_around
    (t := (((s.setNext a (some b)).setPrev b (some a)).setPrev x none).setNext x none)
    h₁ h₃ ha₁ ha₂ hb₁ hb₂ (fun hm => hd'.2.2.2.1 hm) hxa hxb ht'.2.1.1.2
    (fun p hpa hpx => by simp [hpa, hpx]) (fun p hpb hpx => by simp [hpb, hpx])
  exact ⟨h₁', ⟨by simp [Ne.symm hxa], by simp [Ne.symm hxb]⟩, h₃'⟩

/-- Every node of a path but the first has a `prev`. -/
theorem chain'_adj_prev {s : State} : ∀ {l : List Ptr}, l.Chain' (Adj s) →
    ∀ p ∈ l.tail, s.prev p ≠ none
  | [], _, _, hp => by simp at hp
  | [_], _, _, hp => by simp at hp
  | a :: b :: l, h, p, hp => by
    rw [List.chain'_cons] at h
    rcases List.mem_cons.1 hp with rfl | hp
    · simp [h.1.2]
    · exact chain'_adj_prev h.2 p hp

/-! ### Lists -/

/-- A path along `next` that ends at its first return to `hd` is fixed by where it starts. -/
theorem chain_next_unique {f : Ptr → Option Ptr} {hd : Ptr} : ∀ {a : Ptr} {l l' : List Ptr},
    (a :: (l ++ [hd])).Chain' (fun u v => f u = some v) → hd ∉ l →
    (a :: (l' ++ [hd])).Chain' (fun u v => f u = some v) → hd ∉ l' → l = l'
  | _, [], [], _, _, _, _ => rfl
  | _, [], _ :: _, h, _, h', hn' => by
    rw [List.nil_append, List.chain'_pair] at h
    rw [List.cons_append, List.chain'_cons] at h'
    exact absurd (List.mem_cons.2 (Or.inl (Option.some.inj (h.symm.trans h'.1)))) hn'
  | _, _ :: _, [], h, hn, h', _ => by
    rw [List.nil_append, List.chain'_pair] at h'
    rw [List.cons_append, List.chain'_cons] at h
    exact absurd (List.mem_cons.2 (Or.inl (Option.some.inj (h'.symm.trans h.1)))) hn
  | _, _ :: _, _ :: _, h, hn, h', hn' => by
    rw [List.cons_append, List.chain'_cons] at h h'
    obtain rfl := Option.some.inj (h.1.symm.trans h'.1)
    exact congrArg _ (chain_next_unique h.2 (List.not_mem_of_not_mem_cons hn) h'.2
      (List.not_mem_of_not_mem_cons hn'))

namespace ListAt

variable {s : State} {hd : Ptr} {xs : List Ptr}

theorem ring_dropLast (hd : Ptr) (xs : List Ptr) : (hd :: (xs ++ [hd])).dropLast = hd :: xs := by
  simp [List.dropLast_cons_of_ne_nil]

theorem ring_nodup_dropLast (h : ListAt s hd xs) : (hd :: (xs ++ [hd])).dropLast.Nodup := by
  rw [ring_dropLast]; exact h.nodup

theorem ring_nodup_tail (h : ListAt s hd xs) : (hd :: (xs ++ [hd])).tail.Nodup :=
  List.nodup_append_comm.1 h.nodup

/-- The header and the members have both pointers set. -/
theorem next_ne_none (h : ListAt s hd xs) {p : Ptr} (hp : p ∈ hd :: xs) : s.next p ≠ none :=
  chain'_adj_next h.chain p (by rwa [ring_dropLast])

theorem prev_ne_none (h : ListAt s hd xs) {p : Ptr} (hp : p ∈ hd :: xs) : s.prev p ≠ none :=
  chain'_adj_prev h.chain p (by simpa [or_comm] using hp)

/-- No member is the header. -/
theorem ne_hd (h : ListAt s hd xs) {x : Ptr} (hx : x ∈ xs) : x ≠ hd :=
  fun e => (List.nodup_cons.1 h.nodup).1 (e ▸ hx)

/-- A detached node is on no list. -/
theorem not_mem_of_detached (h : ListAt s hd xs) {n : Ptr} (hn : Detached s n) : n ∉ hd :: xs :=
  fun hm => h.next_ne_none hm hn.2

/-- A list depends on no pointer but those of its header and members: it survives anything that
keeps them. -/
theorem agreeOn {s' : State} (h : ListAt s hd xs) (hs : LinksAgreeOn (hd :: xs) s s') :
    ListAt s' hd xs :=
  ⟨h.nodup, chain'_adj_frame h.chain
    (fun p hp => (hs p (by rwa [ring_dropLast] at hp)).1)
    (fun p hp => (hs p (by simpa [or_comm] using hp)).2)⟩

/-- A list survives an operation that writes only pointers of other nodes. -/
theorem frame {s' : State} {ws : List Ptr} (h : ListAt s hd xs) (hs : LinksAgreeOff ws s s')
    (hw : ∀ p ∈ hd :: xs, p ∉ ws) : ListAt s' hd xs :=
  h.agreeOn fun p hp => hs p (hw p hp)

/-- A list fixes the pointers of its header and members. -/
theorem links_unique {s' : State} (h : ListAt s hd xs) (h' : ListAt s' hd xs) :
    LinksAgreeOn (hd :: xs) s s' := by
  have key : ∀ {l : List Ptr}, l.Chain' (Adj s) → l.Chain' (Adj s') →
      (∀ p ∈ l.dropLast, s'.next p = s.next p) ∧ (∀ p ∈ l.tail, s'.prev p = s.prev p) := by
    intro l
    induction l with
    | nil => simp
    | cons a l ih =>
      cases l with
      | nil => simp
      | cons b l =>
        intro hc hc'
        rw [List.chain'_cons] at hc hc'
        obtain ⟨ihn, ihp⟩ := ih hc.2 hc'.2
        refine ⟨fun p hp => ?_, fun p hp => ?_⟩
        · rw [List.dropLast_cons₂, List.mem_cons] at hp
          rcases hp with rfl | hp
          · rw [hc.1.1, hc'.1.1]
          · exact ihn p hp
        · rcases List.mem_cons.1 hp with rfl | hp
          · rw [hc.1.2, hc'.1.2]
          · exact ihp p (by simpa using hp)
  obtain ⟨hn, hp⟩ := key h.chain h'.chain
  intro p hm
  exact ⟨hn p (by rwa [ring_dropLast]), hp p (by simpa [or_comm] using hm)⟩

/-- The pointers fix the members: a header holds one list. -/
theorem unique {ys : List Ptr} (h : ListAt s hd xs) (h' : ListAt s hd ys) : xs = ys :=
  chain_next_unique (h.chain.imp fun _ _ hab => hab.1) (List.nodup_cons.1 h.nodup).1
    (h'.chain.imp fun _ _ hab => hab.1) (List.nodup_cons.1 h'.nodup).1

@[simp] theorem setSchedState_iff {t : Ptr} {w : ThreadState} :
    ListAt (s.setSchedState t w) hd xs ↔ ListAt s hd xs :=
  ⟨fun h => ⟨h.1, h.2⟩, fun h => ⟨h.1, h.2⟩⟩

/-- `head()` of a list: its first member, or the header itself when it is empty. -/
theorem next_hd (h : ListAt s hd xs) : s.next hd = some (xs.headD hd) := by
  have := h.chain
  cases xs <;> simp_all [List.chain'_cons, Adj]

/-- `tail()` of a list: its last member, or the header itself when it is empty. -/
theorem prev_hd (h : ListAt s hd xs) : s.prev hd = some (xs.getLastD hd) := by
  have := (List.chain'_append.1 (show ((hd :: xs) ++ [hd]).Chain' (Adj s) from h.chain)).2.2
  simp only [List.getLast?_cons, Option.mem_def, List.head?_cons, Option.some.injEq,
    forall_eq', Adj] at this
  simpa using this.2

theorem empty_iff (h : ListAt s hd xs) : empty s hd = true ↔ xs = [] := by
  rw [empty, h.next_hd]
  cases xs with
  | nil => simp
  | cons x xs =>
    have hx : x ≠ hd := fun e => (List.nodup_cons.1 h.nodup).1 (e ▸ List.mem_cons_self _ _)
    simp [hx]

theorem empty_cons {x : Ptr} (h : ListAt s hd (x :: xs)) : empty s hd = false :=
  Bool.eq_false_iff.2 fun e => List.cons_ne_nil x xs (h.empty_iff.1 e)

theorem nil_iff : ListAt s hd [] ↔ s.next hd = some hd ∧ s.prev hd = some hd :=
  ⟨fun h => by simpa [Adj] using h.chain, fun h => ⟨by simp, by simpa [Adj] using h⟩⟩

/-- `clear()` makes an empty list. -/
theorem clear (s : State) (hd : Ptr) : ListAt (Rtos.clear hd s) hd [] :=
  nil_iff.2 (by simp)

/-- `insert_after(n, a)`, `a` the header or a member of the list: `n` joins the list right after
`a`. Only the pointers of `n`, of the header and of the members are written. -/
theorem insert {ys zs : List Ptr} {n a : Ptr} (h : ListAt s hd (ys ++ zs)) (hn : Detached s n)
    (ha : (hd :: ys).getLast? = some a) :
    ∃ s', insertAfter n a s = some s' ∧ ListAt s' hd (ys ++ n :: zs) ∧
      LinksAgreeOff (n :: hd :: (ys ++ zs)) s s' := by
  have hnm := h.not_mem_of_detached hn
  obtain ⟨L₁, hL₁⟩ := List.getLast?_eq_some_iff.1 ha
  obtain ⟨b, L₂, hL₂⟩ : ∃ b L₂, zs ++ [hd] = b :: L₂ := List.exists_cons_of_ne_nil (by simp)
  have hring : hd :: (ys ++ zs ++ [hd]) = L₁ ++ a :: b :: L₂ := by
    rw [List.append_assoc, ← List.cons_append, hL₁, hL₂]; simp
  have hring' : hd :: (ys ++ n :: zs ++ [hd]) = L₁ ++ a :: n :: b :: L₂ := by
    rw [List.append_assoc, ← List.cons_append, hL₁, List.cons_append, hL₂]; simp
  have hc := h.chain
  have hd' := h.ring_nodup_dropLast
  have ht' := h.ring_nodup_tail
  rw [hring] at hc hd' ht'
  have hab : s.next a = some b := (List.chain'_append_cons_cons.1 hc).2.1.1
  refine ⟨_, insertAfter_eq hn hab, ⟨?_, ?_⟩, ?_⟩
  · rw [← List.cons_append, List.nodup_middle]
    exact List.nodup_cons.2 ⟨by simpa using hnm, by simpa using h.nodup⟩
  · rw [hring']
    exact chain'_splice hc hd' ht' (by rw [← hring]; simp at hnm ⊢; tauto)
  · refine (insertAfter_agreeOff hab (insertAfter_eq hn hab)).mono ?_
    have ha' : a ∈ hd :: ys := hL₁ ▸ List.mem_append_right _ (List.mem_singleton_self _)
    have hb' : b ∈ zs ++ [hd] := hL₂ ▸ List.mem_cons_self _ _
    simp only [List.mem_cons, List.mem_singleton, List.mem_append, List.not_mem_nil,
      or_false] at ha' hb' ⊢
    rintro p (rfl | rfl | rfl) <;> tauto

/-- `unlink` of a member: it leaves the list, which keeps its other members in order, and it is
detached. Only the pointers of the header and of the members are written. -/
theorem erase {ys zs : List Ptr} {x : Ptr} (h : ListAt s hd (ys ++ x :: zs)) :
    ∃ s', unlink x s = some s' ∧ ListAt s' hd (ys ++ zs) ∧ Detached s' x ∧
      LinksAgreeOff (hd :: (ys ++ x :: zs)) s s' := by
  obtain ⟨a, ha⟩ : ∃ a, (hd :: ys).getLast? = some a := ⟨_, List.getLast?_eq_getLast _ (by simp)⟩
  obtain ⟨L₁, hL₁⟩ := List.getLast?_eq_some_iff.1 ha
  obtain ⟨b, L₂, hL₂⟩ : ∃ b L₂, zs ++ [hd] = b :: L₂ := List.exists_cons_of_ne_nil (by simp)
  have hring : hd :: (ys ++ zs ++ [hd]) = L₁ ++ a :: b :: L₂ := by
    rw [List.append_assoc, ← List.cons_append, hL₁, hL₂]; simp
  have hring' : hd :: (ys ++ x :: zs ++ [hd]) = L₁ ++ a :: x :: b :: L₂ := by
    rw [List.append_assoc, ← List.cons_append, hL₁, List.cons_append, hL₂]; simp
  have hc := h.chain
  have hd' := h.ring_nodup_dropLast
  have ht' := h.ring_nodup_tail
  rw [hring'] at hc hd' ht'
  have hax := (List.chain'_append_cons_cons.1 hc).2.1
  have hxb := (List.chain'_cons.1 (List.chain'_append_cons_cons.1 hc).2.2).1
  refine ⟨_, unlink_linked hax.2 hxb.1, ⟨?_, ?_⟩, by simp [Detached], ?_⟩
  · exact h.nodup.sublist
      (List.Sublist.cons₂ _ (List.Sublist.append_left (List.sublist_cons_self _ _) _))
  · rw [hring]
    exact chain'_unsplice hc hd' ht'
  · refine (unlink_agreeOff hax.2 hxb.1 (unlink_linked hax.2 hxb.1)).mono ?_
    have ha' : a ∈ hd :: ys := hL₁ ▸ List.mem_append_right _ (List.mem_singleton_self _)
    have hb' : b ∈ zs ++ [hd] := hL₂ ▸ List.mem_cons_self _ _
    simp only [List.mem_cons, List.mem_singleton, List.mem_append, List.not_mem_nil,
      or_false] at ha' hb' ⊢
    rintro p (rfl | rfl | rfl) <;> tauto

end ListAt

end MicroOsPlus.Rtos
